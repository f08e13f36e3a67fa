import TaasFudge.Argumentation.Open
import TaasFudge.Tasks.Shown

/-! # Climbing to a maximal labelling

A loop that keeps what the last model has labelled and asks for one more argument.
A model with open variables is a cube of labellings: the loop keeps its lower one,
and the clause for one more argument leaves out what the model leaves open.
-/

namespace TaasFudge

open Dimacs Framework

variable {n : ℕ}

def certain (m : PartialModel) (vars : Fin n → ℤ) : Set (Fin n) := {i | 0 < m.value (vars i)}

def possible (m : PartialModel) (vars : Fin n → ℤ) : Set (Fin n) := {i | ¬ m.value (vars i) < 0}

section Models
variable {m : PartialModel} {τ υ : Assignment} {vars inVars outVars : Fin n → ℤ}

theorem certain_subset_possible : certain m vars ⊆ possible m vars := by
  intro i hi
  exact not_lt_of_gt hi

theorem certain_subset_selected (hpos : ∀ i, 0 < vars i) (h : m.Completion τ) :
    certain m vars ⊆ selected τ vars := fun i hi => h.lit_of_value_pos (hpos i) hi

theorem selected_subset_possible (hpos : ∀ i, 0 < vars i) (h : m.Completion τ) :
    selected τ vars ⊆ possible m vars := by
  intro i hi hneg
  rw [mem_selected, h.lit_of_value_neg (hpos i) hneg] at hi
  cases hi

theorem certain_model (hpos : ∀ i, 0 < vars i) : certain τ.model vars = selected τ vars :=
  Set.ext fun i => τ.value_pos_iff (hpos i)

theorem possible_model (hpos : ∀ i, 0 < vars i) : possible τ.model vars = selected τ vars := by
  ext i
  rw [possible, Set.mem_ofPred_eq, τ.value_neg_iff (hpos i), Bool.not_eq_false, mem_selected]

theorem certain_agreement (hpos : ∀ i, 0 < vars i) :
    certain (τ.agreement υ) vars = selected τ vars ∩ selected υ vars :=
  Set.ext fun i => τ.agreement_value_pos_iff υ (hpos i)

theorem possible_agreement (hpos : ∀ i, 0 < vars i) :
    possible (τ.agreement υ) vars = selected τ vars ∪ selected υ vars := by
  ext i
  simp only [possible, Set.mem_ofPred_eq, τ.agreement_value_neg_iff υ (hpos i), Set.mem_union,
    mem_selected]
  cases τ.lit (vars i) <;> cases υ.lit (vars i) <;> simp

/-- Every labelling between the certain and the possible one is that of a completion. -/
theorem LabelVars.exists_completion (hv : LabelVars inVars outVars) (m : PartialModel)
    {S O : Set (Fin n)} (hS : certain m inVars ⊆ S) (hS' : S ⊆ possible m inVars)
    (hO : certain m outVars ⊆ O) (hO' : O ⊆ possible m outVars) :
    ∃ τ, m.Completion τ ∧ labels inVars outVars τ = (S, O) := by
  have hpos : ∀ v, 0 < Sum.elim inVars outVars v := by
    rintro (i | i)
    exacts [hv.in_pos i, hv.out_pos i]
  obtain ⟨τ, hτ, hlit⟩ := m.exists_completion hpos hv.injective
    (P := Sum.elim (· ∈ S) (· ∈ O)) (by
      rintro (i | i) hi
      · exact hS hi
      · exact hO hi) (by
      rintro (i | i) hi hmem
      · exact hS' hmem hi
      · exact hO' hmem hi)
  exact ⟨τ, hτ, Prod.ext (Set.ext fun i => hlit (.inl i)) (Set.ext fun i => hlit (.inr i))⟩

/-- A model of which all completions are in the family is a cube of it. -/
theorem cube_of_completions (hv : LabelVars inVars outVars)
    {L : Set (Fin n) → Set (Fin n) → Prop}
    (h : ∀ τ, m.Completion τ → L (selected τ inVars) (selected τ outVars)) :
    Cube L (certain m inVars) (possible m inVars) (certain m outVars) (possible m outVars) where
  in_subset := certain_subset_possible
  out_subset := certain_subset_possible
  mem S T hS hS' hT hT' := by
    obtain ⟨τ, hτ, hlabels⟩ := hv.exists_completion m hS hS' hT hT'
    obtain ⟨rfl, rfl⟩ := Prod.mk.inj hlabels
    exact h τ hτ

theorem LabelVars.exists_model (hv : LabelVars inVars outVars) {P E O Q : Set (Fin n)}
    (hPE : P ⊆ E) (hOQ : O ⊆ Q) : ∃ m, certain m inVars = P ∧ possible m inVars = E ∧
      certain m outVars = O ∧ possible m outVars = Q := by
  obtain ⟨τ, hP, hO⟩ := hv.exists_assignment P O
  obtain ⟨υ, hE, hQ⟩ := hv.exists_assignment E Q
  refine ⟨τ.agreement υ, ?_, ?_, ?_, ?_⟩
  · rw [certain_agreement hv.in_pos, hP, hE, Set.inter_eq_left.2 hPE]
  · rw [possible_agreement hv.in_pos, hP, hE, Set.union_eq_right.2 hPE]
  · rw [certain_agreement hv.out_pos, hO, hQ, Set.inter_eq_left.2 hOQ]
  · rw [possible_agreement hv.out_pos, hO, hQ, Set.union_eq_right.2 hOQ]

end Models

/-- The labellings looked for: above `A`, and with an argument outside `D`. -/
structure Climbs (L : Set (Fin n) → Set (Fin n) → Prop)
    (f : Set (Fin n) → Set (Fin n) → Set (Fin n)) (A D : Set (Fin n))
    (b : Set (Fin n) × Set (Fin n)) : Prop where
  mem : L b.1 b.2
  above : A ⊆ f b.1 b.2
  leaves : ¬ f b.1 b.2 ⊆ D

section Loop
variable {L : Set (Fin n) → Set (Fin n) → Prop} {f : Set (Fin n) → Set (Fin n) → Set (Fin n)}
  {M : PartialModel → Prop} {inVars outVars : Fin n → ℤ} {m : PartialModel}
  {solver : IpasirSolver} {kept held : Set (Fin n)} {D : Set (Fin n)}

structure Reached (L : Set (Fin n) → Set (Fin n) → Prop)
    (f : Set (Fin n) → Set (Fin n) → Set (Fin n)) (inVars outVars : Fin n → ℤ) (m : PartialModel)
    (kept held D : Set (Fin n)) : Prop where
  cube : Cube L (certain m inVars) (possible m inVars) (certain m outVars) (possible m outVars)
  kept_eq : kept = f (certain m inVars) (certain m outVars)
  held_eq : held = certain m inVars
  upper_eq : D = f (possible m inVars) (possible m outVars)
  nonempty : kept.Nonempty

/-- The object looks for labellings that keep what is labelled and label more; nothing has been
found yet, or the sets are those of a model with the property `M`. -/
structure ClimbInv (L : Set (Fin n) → Set (Fin n) → Prop)
    (f : Set (Fin n) → Set (Fin n) → Set (Fin n)) (M : PartialModel → Prop)
    (inVars outVars : Fin n → ℤ) (solver : IpasirSolver) (kept held D : Set (Fin n)) : Prop where
  describes : solver.Describes (labels inVars outVars) (Climbs L f kept D)
  kept_subset : kept ⊆ D
  reached : (kept = ∅ ∧ held = ∅ ∧ D = ∅) ∨ ∃ m, M m ∧ Reached L f inVars outVars m kept held D

/-- How a climb ends: there is nothing to label, or the set held is that of a model whose cube
stops the search. -/
def ClimbEnd (L : Set (Fin n) → Set (Fin n) → Prop)
    (f : Set (Fin n) → Set (Fin n) → Set (Fin n)) (M : PartialModel → Prop)
    (inVars outVars : Fin n → ℤ) (held : Set (Fin n)) : Prop :=
  (held = ∅ ∧ ∀ S T, L S T → f S T = ∅) ∨ ∃ m, M m ∧ held = certain m inVars ∧
    StopCube L f (certain m inVars) (possible m inVars) (certain m outVars) (possible m outVars)

theorem ClimbInv.finish (h : ClimbInv L f M inVars outVars solver kept held D)
    (hno : ∀ b, ¬ Climbs L f kept D b) : ClimbEnd L f M inVars outVars held := by
  obtain ⟨rfl, rfl, rfl⟩ | ⟨m, hm, hr⟩ := h.reached
  · refine .inl ⟨rfl, fun S T hST => Set.subset_empty_iff.1 ?_⟩
    by_contra hne
    exact hno (S, T) ⟨hST, Set.empty_subset _, hne⟩
  · refine .inr ⟨m, hm, hr.held_eq, hr.cube, hr.kept_eq ▸ hr.nonempty, fun S T hST habove => ?_⟩
    by_contra hleaves
    exact hno (S, T) ⟨hST, hr.kept_eq ▸ habove, hr.upper_eq ▸ hleaves⟩

/-- At a cube that stops the search nothing is left to find. -/
theorem Reached.not_climbs (h : Reached L f inVars outVars m kept held D)
    (hstop : StopCube L f (certain m inVars) (possible m inVars) (certain m outVars)
      (possible m outVars)) (b : Set (Fin n) × Set (Fin n)) : ¬ Climbs L f kept D b := by
  intro hb
  apply hb.leaves
  rw [h.upper_eq]
  exact hstop.stop _ _ hb.mem (h.kept_eq ▸ hb.above)

/-- A cube that stops the search has something to find at the start. -/
theorem Framework.StopCube.climbs_start {P E O Q : Set (Fin n)} (h : StopCube L f P E O Q) :
    Climbs L f ∅ ∅ (P, O) := by
  refine ⟨h.lower, Set.empty_subset _, fun hempty => ?_⟩
  obtain ⟨i, hi⟩ := h.nonempty
  exact hempty hi

/-- What all completions of the next model say about what it has labelled. -/
theorem climbs_lower (hv : LabelVars inVars outVars)
    (hm : ∀ τ, m.Completion τ → Climbs L f kept D (labels inVars outVars τ)) :
    Climbs L f kept D (certain m inVars, certain m outVars) := by
  obtain ⟨τ, hτ, hlabels⟩ := hv.exists_completion m (S := certain m inVars)
    (O := certain m outVars) subset_rfl certain_subset_possible subset_rfl certain_subset_possible
  exact hlabels ▸ hm τ hτ

/-- The clauses after a model: one for an argument outside what is possible, and those that keep
the new arguments labelled. -/
theorem ClimbInv.next (h : ClimbInv L f M inVars outVars solver kept held D)
    (hv : LabelVars inVars outVars) (hM : M m)
    (hm : ∀ τ, m.Completion τ → Climbs L f kept D (labels inVars outVars τ))
    (hf : Monotone (Function.uncurry f)) {c : Clause} (hc : ∀ τ : Assignment, τ.Satisfies c ↔
      ¬ f (selected τ inVars) (selected τ outVars) ⊆ f (possible m inVars) (possible m outVars))
    {cs : List Clause} {kept' held' new : Set (Fin n)}
    (hcs : ∀ τ : Assignment, (∀ d ∈ cs, τ.Satisfies d) ↔
      new ⊆ f (selected τ inVars) (selected τ outVars))
    (hkept : kept' = kept ∪ new) (hnew : kept ∪ new = f (certain m inVars) (certain m outVars))
    (hheld : held' = certain m inVars) :
    ClimbInv L f M inVars outVars (((solver.satisfied m).push c).pushAll cs) kept' held'
      (f (possible m inVars) (possible m outVars)) ∧
    Reached L f inVars outVars m kept' held' (f (possible m inVars) (possible m outVars)) ∧
    kept ⊂ kept' := by
  have hlow := climbs_lower hv hm
  rw [← hkept] at hnew
  have hleaves : ¬ kept' ⊆ D := hnew ▸ hlow.leaves
  have hreached : Reached L f inVars outVars m kept' held'
      (f (possible m inVars) (possible m outVars)) := by
    refine ⟨cube_of_completions hv fun τ hτ => (hm τ hτ).mem, hnew, hheld, rfl, ?_⟩
    obtain ⟨i, hi, -⟩ := Set.not_subset.1 hleaves
    exact ⟨i, hi⟩
  have hsub : kept ⊆ kept' := hkept ▸ Set.subset_union_left
  have hcertain : f (certain m inVars) (certain m outVars) ⊆
      f (possible m inVars) (possible m outVars) :=
    @hf (_, _) (_, _) ⟨certain_subset_possible, certain_subset_possible⟩
  refine ⟨⟨?_, hnew ▸ hcertain, .inr ⟨m, hM, hreached⟩⟩, hreached, hsub,
    fun hback => hleaves (hback.trans h.kept_subset)⟩
  refine (((h.describes.satisfied m).push (P := fun b =>
    ¬ f b.1 b.2 ⊆ f (possible m inVars) (possible m outVars)) hc).pushAll
    (P := fun b => new ⊆ f b.1 b.2) hcs).congr fun b => ?_
  constructor
  · rintro ⟨⟨hb, hout⟩, hin⟩
    exact ⟨hb.mem, hkept ▸ Set.union_subset hb.above hin, hout⟩
  · intro hb
    refine ⟨⟨⟨hb.mem, hsub.trans hb.above, fun hD => hleaves (hb.above.trans hD)⟩, hb.leaves⟩, ?_⟩
    exact (hkept ▸ Set.subset_union_right).trans hb.above

/-- A cube that stops the search is found by a search for any labelling at all. -/
theorem exists_stopping_answer (hv : LabelVars inVars outVars) (hf : Monotone (Function.uncurry f))
    (hstart : ∀ τ, Climbs L f ∅ ∅ (labels inVars outVars τ) → solver.Holds τ)
    (hassume : solver.assumptions = []) {P : Set (Fin n)} (hP : StopsAt L f P) (k : ℕ) :
    ∃ (ω : SatOracle) (m : PartialModel), ω.answer k solver.query = .sat m ∧
      certain m inVars = P ∧ StopCube L f (certain m inVars) (possible m inVars)
        (certain m outVars) (possible m outVars) := by
  obtain ⟨E, O, Q, hcube⟩ := hP
  obtain ⟨m, rfl, rfl, rfl, rfl⟩ := hv.exists_model hcube.in_subset hcube.out_subset
  have hsound : (Answer.sat m).Sound solver.query := by
    intro τ hτ
    refine ⟨hstart τ ⟨?_, Set.empty_subset _, fun hempty => ?_⟩, ?_⟩
    · exact hcube.mem _ _ (certain_subset_selected hv.in_pos hτ)
        (selected_subset_possible hv.in_pos hτ) (certain_subset_selected hv.out_pos hτ)
        (selected_subset_possible hv.out_pos hτ)
    · obtain ⟨i, hi⟩ := hcube.nonempty
      exact hempty (@hf (_, _) (_, _) ⟨certain_subset_selected hv.in_pos hτ,
        certain_subset_selected hv.out_pos hτ⟩ i hi)
    · simp [IpasirSolver.query, hassume]
  obtain ⟨ω, hω⟩ := SatOracle.exists_answer (k := k) hsound
  exact ⟨ω, m, hω, rfl, hcube⟩

end Loop

end TaasFudge
