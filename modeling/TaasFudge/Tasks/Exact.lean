import TaasFudge.Tasks.Complete

/-! # The encodings are exact

For each encoder, the assignments that satisfy its clauses, their projections to the IN
variables, and the sets that extend to a model.
-/

namespace TaasFudge

open Dimacs

variable {n : ℕ}

def twoRivals : AAF 2 :=
  ((AAF.withoutAttacks argNumber).addAttack ⟨0, by decide⟩ ⟨1, by decide⟩).addAttack
    ⟨1, by decide⟩ ⟨0, by decide⟩

theorem twoRivals_attacks (a b : Fin 2) : twoRivals.framework.attacks a b ↔ a ≠ b := by
  rw [AAF.attacks_iff]
  revert a b
  decide

theorem twoRivals_complete (i : Fin 2) : twoRivals.framework.Complete {i} := by
  refine ⟨⟨?_, ?_⟩, ?_⟩
  · rintro a rfl b rfl
    rw [twoRivals_attacks]
    exact fun h => h rfl
  · rintro a rfl b hb
    rw [twoRivals_attacks] at hb
    exact ⟨a, rfl, (twoRivals_attacks a b).2 hb.symm⟩
  · intro a ha
    by_contra hne
    obtain ⟨c, rfl, hc⟩ := ha i ((twoRivals_attacks i a).2 fun h => hne h.symm)
    exact (twoRivals_attacks c c).1 hc rfl

section Encoders
variable {inVars outVars : Fin n → ℤ} {aaf : AAF n} {grounded : Labeling} {τ : Assignment}

theorem holds_pushAll_satInit (cs : List Clause) :
    (satInit.pushAll cs).Holds τ ↔ ∀ c ∈ cs, τ.Satisfies c := by
  rw [IpasirSolver.holds_pushAll rfl]
  exact and_iff_right nofun

theorem holds_addAdmTestClauses (hv : LabelVars inVars outVars) (hg : Grounds aaf grounded) :
    (addAdmTestClauses satInit inVars outVars aaf grounded).2.Holds τ ↔
      aaf.framework.AdmissibleLabelling (selected τ inVars) (selected τ outVars) := by
  rw [addAdmTestClauses_eq hv, holds_pushAll_satInit, admClauses_iff hv hg]

theorem holds_addCfTestClauses (hv : LabelVars inVars outVars) :
    (addCfTestClauses satInit inVars outVars aaf grounded).2.Holds τ ↔
      aaf.framework.ConflictFreeLabelling (selected τ inVars) (selected τ outVars) := by
  rw [addCfTestClauses_eq hv, holds_pushAll_satInit, cfClauses_iff hv]

theorem holds_addComTestClauses (hv : LabelVars inVars outVars) (hg : Grounds aaf grounded) :
    (addComTestClauses satInit inVars outVars aaf grounded).Holds τ ↔
      aaf.framework.CompleteLabelling (selected τ inVars) (selected τ outVars) := by
  rw [addComTestClauses_eq hv, holds_pushAll_satInit, comClauses_iff hv hg]

theorem holds_addStbTestClauses (hpos : ∀ i, 0 < inVars i) (hg : Grounds aaf grounded) :
    (addStbTestClauses satInit inVars aaf grounded).Holds τ ↔
      aaf.framework.Stable (selected τ inVars) := by
  rw [addStbTestClauses_eq hpos, holds_pushAll_satInit, stbClauses_iff hpos hg]

/-- A labelling that an object admits is selected by one of its models. -/
theorem exists_model (hv : LabelVars inVars outVars) {solver : IpasirSolver}
    {L : Set (Fin n) → Set (Fin n) → Prop}
    (h : ∀ τ, solver.Holds τ ↔ L (selected τ inVars) (selected τ outVars)) {S O : Set (Fin n)}
    (hL : L S O) : ∃ τ, solver.Holds τ ∧ selected τ inVars = S ∧ selected τ outVars = O := by
  obtain ⟨τ, hin, hout⟩ := hv.exists_assignment S O
  refine ⟨τ, ?_, hin, hout⟩
  rw [h, hin, hout]
  exact hL

theorem image_selected (hv : LabelVars inVars outVars) {solver : IpasirSolver}
    {L : Set (Fin n) → Set (Fin n) → Prop}
    (h : ∀ τ, solver.Holds τ ↔ L (selected τ inVars) (selected τ outVars)) :
    (fun τ => selected τ inVars) '' {τ | solver.Holds τ} = {S | ∃ O, L S O} := by
  ext S
  constructor
  · rintro ⟨τ, hτ, rfl⟩
    exact ⟨_, (h τ).1 hτ⟩
  · rintro ⟨O, hL⟩
    obtain ⟨τ, hτ, hin, -⟩ := exists_model hv h hL
    exact ⟨τ, hτ, hin⟩

/-- The models of the admissibility clauses are the admissible labellings above the grounded one:
IN and OUT contain it, are disjoint, every attacker of IN is OUT and IN attacks every member of OUT.
Their IN sets are the admissible supersets of the grounded extension, each with the arguments it
attacks as OUT in one of its models. -/
theorem addAdmTestClauses_exact (hv : LabelVars inVars outVars) (hg : Grounds aaf grounded) :
    (∀ τ, (addAdmTestClauses satInit inVars outVars aaf grounded).2.Holds τ ↔
      aaf.framework.AdmissibleLabelling (selected τ inVars) (selected τ outVars)) ∧
    (fun τ => selected τ inVars) ''
        {τ | (addAdmTestClauses satInit inVars outVars aaf grounded).2.Holds τ} =
      {S | aaf.framework.Admissible S ∧ aaf.framework.grounded ⊆ S} ∧
    ∀ S, aaf.framework.Admissible S → aaf.framework.grounded ⊆ S →
      ∃ τ, (addAdmTestClauses satInit inVars outVars aaf grounded).2.Holds τ ∧
        selected τ inVars = S ∧ selected τ outVars = aaf.framework.attackedBy S := by
  have hmodels := fun τ => holds_addAdmTestClauses (τ := τ) hv hg
  refine ⟨hmodels, ?_, ?_⟩
  · rw [image_selected hv hmodels]
    ext S
    exact Framework.exists_admissibleLabelling
  · intro S hS hG
    exact exists_model hv hmodels (hS.labelling hG)

/-- The first of two arguments that attack each other. -/
theorem addAdmTestClauses_twoRivals :
    ∃ τ, (addAdmTestClauses satInit (numberPairs 2 1).1 (numberPairs 2 1).2.1 twoRivals
        (computeGrounded twoRivals).1).2.Holds τ ∧
      selected τ (numberPairs 2 1).1 = {0} ∧
      selected τ (numberPairs 2 1).2.1 = twoRivals.framework.attackedBy {0} :=
  (addAdmTestClauses_exact (labelVars_numberPairs 2 Int.one_pos)
    (computeGrounded_represents twoRivals)).2.2 {0} (twoRivals_complete 0).admissible
    (twoRivals_complete 0).grounded_subset

/-- In the models of the completeness clauses OUT is what IN attacks, and taking the IN set is a
bijection onto the complete extensions. -/
theorem addComTestClauses_exact (hv : LabelVars inVars outVars) (hg : Grounds aaf grounded) :
    Set.BijOn Prod.fst (labels inVars outVars ''
        {τ | (addComTestClauses satInit inVars outVars aaf grounded).Holds τ})
      {S | aaf.framework.Complete S} ∧
    ∀ τ, (addComTestClauses satInit inVars outVars aaf grounded).Holds τ →
      selected τ outVars = aaf.framework.attackedBy (selected τ inVars) := by
  have hout : ∀ τ, (addComTestClauses satInit inVars outVars aaf grounded).Holds τ →
      selected τ outVars = aaf.framework.attackedBy (selected τ inVars) := by
    intro τ hτ
    exact ((holds_addComTestClauses hv hg).1 hτ).out_eq
  refine ⟨⟨?_, ?_, ?_⟩, hout⟩
  · rintro _ ⟨τ, hτ, rfl⟩
    exact ((holds_addComTestClauses hv hg).1 hτ).complete
  · rintro _ ⟨τ, hτ, rfl⟩ _ ⟨υ, hυ, rfl⟩ hin
    apply Prod.ext
    · exact hin
    · rw [labels_snd, labels_snd, hout τ hτ, hout υ hυ]
      exact congrArg aaf.framework.attackedBy hin
  · intro S hS
    obtain ⟨τ, hτ, hin, -⟩ := exists_model hv (fun τ => holds_addComTestClauses hv hg)
      (Framework.Complete.labelling hS)
    exact ⟨_, ⟨τ, hτ, rfl⟩, hin⟩

theorem addComTestClauses_twoRivals :
    ∃ b ∈ labels (numberPairs 2 1).1 (numberPairs 2 1).2.1 '' {τ | (addComTestClauses satInit
        (numberPairs 2 1).1 (numberPairs 2 1).2.1 twoRivals
        (computeGrounded twoRivals).1).Holds τ}, b.1 = {1} :=
  (addComTestClauses_exact (labelVars_numberPairs 2 Int.one_pos)
    (computeGrounded_represents twoRivals)).1.surjOn (twoRivals_complete 1)

/-- The models of the conflict-freeness clauses are the conflict-free sets with OUT what they
attack, those of the stability clauses the stable extensions, and no such set is missing. -/
theorem addCfStbTestClauses_exact (hv : LabelVars inVars outVars) (hg : Grounds aaf grounded) :
    (∀ τ, (addCfTestClauses satInit inVars outVars aaf grounded).2.Holds τ ↔
      aaf.framework.ConflictFree (selected τ inVars) ∧
        selected τ outVars = aaf.framework.attackedBy (selected τ inVars)) ∧
    (fun τ => selected τ inVars) ''
        {τ | (addCfTestClauses satInit inVars outVars aaf grounded).2.Holds τ} =
      {S | aaf.framework.ConflictFree S} ∧
    (∀ τ, (addStbTestClauses satInit inVars aaf grounded).Holds τ ↔
      aaf.framework.Stable (selected τ inVars)) ∧
    (fun τ => selected τ inVars) '' {τ | (addStbTestClauses satInit inVars aaf grounded).Holds τ} =
      {S | aaf.framework.Stable S} := by
  have hcf : ∀ τ, (addCfTestClauses satInit inVars outVars aaf grounded).2.Holds τ ↔
      aaf.framework.ConflictFreeLabelling (selected τ inVars) (selected τ outVars) :=
    fun τ => holds_addCfTestClauses hv
  have hstb := fun τ => holds_addStbTestClauses (τ := τ) hv.in_pos hg
  refine ⟨fun τ => ?_, ?_, hstb, ?_⟩
  · rw [hcf]
    exact ⟨fun h => ⟨h.conflictFree, h.out_eq⟩, fun h => ⟨h.1, h.2⟩⟩
  · rw [image_selected hv hcf]
    ext S
    exact ⟨fun ⟨_, h⟩ => h.conflictFree, fun h => ⟨_, Framework.ConflictFree.labelling h⟩⟩
  · rw [image_selected hv (L := fun S _ => aaf.framework.Stable S) hstb]
    ext S
    exact ⟨fun ⟨_, h⟩ => h, fun h => ⟨∅, h⟩⟩

/-- The empty set is conflict-free and not stable. -/
theorem addCfStbTestClauses_twoRivals :
    (∃ τ, (addCfTestClauses satInit (numberPairs 2 1).1 (numberPairs 2 1).2.1 twoRivals
        (computeGrounded twoRivals).1).2.Holds τ ∧ selected τ (numberPairs 2 1).1 = ∅) ∧
    ¬ ∃ τ, (addStbTestClauses satInit (numberPairs 2 1).1 twoRivals
        (computeGrounded twoRivals).1).Holds τ ∧ selected τ (numberPairs 2 1).1 = ∅ := by
  have h := addCfStbTestClauses_exact (labelVars_numberPairs 2 Int.one_pos)
    (computeGrounded_represents twoRivals)
  constructor
  · exact h.2.1.superset (show twoRivals.framework.ConflictFree ∅ from fun _ ha => ha.elim)
  · rintro ⟨τ, hτ, hempty⟩
    have hst := (h.2.2.1 τ).1 hτ
    rw [hempty] at hst
    obtain ⟨a, ha, -⟩ := hst.attacked 0 id
    exact ha

end Encoders

end TaasFudge
