import TaasFudge.Argumentation.Range
import TaasFudge.Sat.IpasirSolver
import TaasFudge.Taas.Aaf

/-! # Encodings shared by the tasks

Each encoder is a loop over the arguments that adds clauses to a solver object. The
clauses it adds are listed, and the assignments satisfying them are described by
the IN and OUT sets they select.
-/

namespace TaasFudge

open Dimacs

variable {n : ℕ}

/-- `for (i...) { in_vars[i] = idx++; out_vars[i] = idx++; }` -/
def numberPairs (n : ℕ) (idx : ℤ) : (Fin n → ℤ) × (Fin n → ℤ) × ℤ :=
  (List.finRange n).foldl (fun st i =>
    (Function.update st.1 i st.2.2, Function.update st.2.1 i (st.2.2 + 1), st.2.2 + 2))
    (fun _ => 0, fun _ => 0, idx)

/-- `for (i...) in_vars[i] = idx++;` -/
def numberVars (n : ℕ) (idx : ℤ) : (Fin n → ℤ) × ℤ :=
  (List.finRange n).foldl (fun st i => (Function.update st.1 i st.2, st.2 + 1)) (fun _ => 0, idx)

/-- A loop over all arguments that assigns cells in order: an invariant over the prefix. -/
theorem foldl_finRange_induction {β : Type} (f : β → Fin n → β) (P : ℕ → β → Prop) {b : β}
    (h0 : P 0 b) (hstep : ∀ (i : Fin n) b, P i b → P (i + 1) (f b i)) :
    P n ((List.finRange n).foldl f b) := by
  have key : ∀ k ≤ n, P k (((List.finRange n).take k).foldl f b) := by
    intro k
    induction k with
    | zero => exact fun _ => h0
    | succ k ih =>
      intro hk
      have hlt : k < (List.finRange n).length := by rw [List.length_finRange]; omega
      rw [List.take_succ_eq_append_getElem hlt, List.foldl_append, List.getElem_finRange]
      exact hstep ⟨k, by omega⟩ _ (ih (by omega))
  have h := key n le_rfl
  rwa [List.take_of_length_le (by simp)] at h

/-- The cells below the next one, after it was assigned. -/
theorem update_eq_of_lt_succ {α : Type} {f g : Fin n → α} {i : Fin n} {v : α}
    (h : ∀ k : Fin n, (k : ℕ) < i → f k = g k) (hv : v = g i) (k : Fin n)
    (hk : (k : ℕ) < i + 1) : Function.update f i v k = g k := by
  by_cases hki : k = i
  · rw [hki, Function.update_self, hv]
  · have hne := Fin.val_ne_of_ne hki
    rw [Function.update_of_ne hki]
    exact h k (by omega)

theorem numberPairs_eq (n : ℕ) (idx : ℤ) :
    numberPairs n idx =
      (fun i : Fin n => idx + 2 * i, fun i : Fin n => idx + 2 * i + 1, idx + 2 * n) := by
  have h := foldl_finRange_induction (n := n) (fun st i =>
    ((Function.update st.1 i st.2.2, Function.update st.2.1 i (st.2.2 + 1), st.2.2 + 2) :
      (Fin n → ℤ) × (Fin n → ℤ) × ℤ))
    (fun k st => (∀ i : Fin n, (i : ℕ) < k → st.1 i = idx + 2 * i) ∧
      (∀ i : Fin n, (i : ℕ) < k → st.2.1 i = idx + 2 * i + 1) ∧ st.2.2 = idx + 2 * k)
    (b := (fun _ => 0, fun _ => 0, idx))
    ⟨fun i hi => absurd hi (by omega), fun i hi => absurd hi (by omega), by simp⟩ (by
      rintro i ⟨f, g, j⟩ ⟨hin, hout, hidx⟩
      dsimp only at hin hout hidx ⊢
      refine ⟨update_eq_of_lt_succ hin hidx, update_eq_of_lt_succ hout ?_, ?_⟩
      · rw [hidx]
      · push_cast
        omega)
  exact Prod.ext (funext fun i => h.1 i i.isLt)
    (Prod.ext (funext fun i => h.2.1 i i.isLt) h.2.2)

theorem numberVars_eq (n : ℕ) (idx : ℤ) :
    numberVars n idx = (fun i : Fin n => idx + i, idx + n) := by
  have h := foldl_finRange_induction (n := n) (fun st i =>
    ((Function.update st.1 i st.2, st.2 + 1) : (Fin n → ℤ) × ℤ))
    (fun k st => (∀ i : Fin n, (i : ℕ) < k → st.1 i = idx + i) ∧ st.2 = idx + k)
    (b := (fun _ => 0, idx)) ⟨fun i hi => absurd hi (by omega), by simp⟩ (by
      rintro i ⟨f, j⟩ ⟨hvars, hidx⟩
      dsimp only at hvars hidx ⊢
      refine ⟨update_eq_of_lt_succ hvars hidx, ?_⟩
      push_cast
      omega)
  exact Prod.ext (funext fun i => h.1 i i.isLt) h.2

structure LabelVars (inVars outVars : Fin n → ℤ) : Prop where
  in_pos : ∀ i, 0 < inVars i
  out_pos : ∀ i, 0 < outVars i
  injective : Function.Injective (Sum.elim inVars outVars)

namespace LabelVars
variable {inVars outVars : Fin n → ℤ}

theorem in_ne (h : LabelVars inVars outVars) (i : Fin n) : inVars i ≠ 0 := (h.in_pos i).ne'
theorem out_ne (h : LabelVars inVars outVars) (i : Fin n) : outVars i ≠ 0 := (h.out_pos i).ne'

end LabelVars

theorem labelVars_numberPairs (n : ℕ) {idx : ℤ} (h : 0 < idx) :
    LabelVars (numberPairs n idx).1 (numberPairs n idx).2.1 := by
  rw [numberPairs_eq]
  refine ⟨fun i => by dsimp only; omega, fun i => by dsimp only; omega, ?_⟩
  rintro (i | i) (j | j) hij
  all_goals simp only [Sum.elim_inl, Sum.elim_inr] at hij
  · exact congrArg Sum.inl (Fin.ext (by omega))
  · omega
  · omega
  · exact congrArg Sum.inr (Fin.ext (by omega))

def selected (τ : Assignment) (vars : Fin n → ℤ) : Set (Fin n) := {i | τ.lit (vars i) = true}

@[simp] theorem mem_selected {τ : Assignment} {vars : Fin n → ℤ} {i : Fin n} :
    i ∈ selected τ vars ↔ τ.lit (vars i) = true := Iff.rfl

theorem LabelVars.exists_assignment {inVars outVars : Fin n → ℤ}
    (h : LabelVars inVars outVars) (S O : Set (Fin n)) :
    ∃ τ : Assignment, selected τ inVars = S ∧ selected τ outVars = O := by
  have hpos : ∀ v, 0 < Sum.elim inVars outVars v := by
    rintro (i | i)
    exacts [h.in_pos i, h.out_pos i]
  obtain ⟨τ, hτ⟩ := Dimacs.exists_assignment hpos h.injective (Sum.elim (· ∈ S) (· ∈ O))
  exact ⟨τ, Set.ext fun i => hτ (.inl i), Set.ext fun i => hτ (.inr i)⟩

section Encoders
variable (solver : IpasirSolver) (inVars outVars : Fin n → ℤ) (aaf : AAF n) (grounded : Labeling)

/-- Clauses for admissible sets; the result tells whether no argument is left undecided by
the grounded labeling. -/
def addAdmTestClauses : Bool × IpasirSolver :=
  (List.finRange n).foldl (fun (st : Bool × IpasirSolver) (i : Fin n) =>
    let solver := satAddClause2 st.2 (-inVars i) (-outVars i)
    -- knowledge from the grounded extension replaces the defining clauses
    if grounded.labIn.get i then (st.1, satAddClause1 solver (inVars i))
    else if grounded.labOut.get i then (st.1, satAddClause1 solver (outVars i))
    else
      let p := (aaf.parents i).foldl (fun (p : IpasirSolver × List ℤ) j =>
        (satAddClause2 p.1 (-inVars i) (outVars j), p.2 ++ [inVars j])) (solver, [-outVars i])
      (false, satAddClauseZT p.1 (p.2 ++ [0]))) (true, solver)

/-- Clauses for conflict-free sets; the grounded labeling only decides the result. -/
def addCfTestClauses : Bool × IpasirSolver :=
  (List.finRange n).foldl (fun (st : Bool × IpasirSolver) (i : Fin n) =>
    let solver := satAddClause2 st.2 (-inVars i) (-outVars i)
    let allGrounded :=
      if !grounded.labIn.get i && !grounded.labOut.get i then false else st.1
    let p := (aaf.parents i).foldl (fun (p : IpasirSolver × List ℤ) j =>
      (satAddClause2 p.1 (-inVars j) (outVars i), p.2 ++ [inVars j])) (solver, [-outVars i])
    (allGrounded, satAddClauseZT p.1 (p.2 ++ [0]))) (true, solver)

/-- Clauses for one set attacking another, with one variable for each attack. -/
def addAttackClauses (inAttackedVars : Fin n → ℤ) (attackIdxOffset : ℤ) : IpasirSolver :=
  let st := (List.finRange n).foldl (fun st (i : Fin n) =>
    (aaf.parents i).foldl (fun (st : IpasirSolver × List ℤ × ℤ) j =>
      let idx := st.2.2
      -- attack variable iff attacker IN and attacked IN
      let solver := satAddClause2 st.1 (-idx) (inVars j)
      let solver := satAddClause2 solver (-idx) (inAttackedVars i)
      let solver := satAddClause3 solver idx (-inAttackedVars i) (-inVars j)
      (solver, st.2.1 ++ [idx], idx + 1)) st) (solver, [], attackIdxOffset)
  satAddClause st.1 st.2.1 aaf.numberOfAttacks

def addStbTestClauses : IpasirSolver :=
  (List.finRange n).foldl (fun (solver : IpasirSolver) (i : Fin n) =>
    let solver :=
      if grounded.labIn.get i then satAddClause1 solver (inVars i)
      else if grounded.labOut.get i then satAddClause1 solver (-inVars i)
      else solver
    let p := (aaf.parents i).foldl (fun (p : IpasirSolver × List ℤ × Bool) j =>
      (satAddClause2 p.1 (-inVars i) (-inVars j), p.2.1 ++ [inVars j], false))
      (solver, [inVars i], true)
    -- an unattacked argument gets no clause
    if !p.2.2 then satAddClause p.1 p.2.1 p.2.1.length else p.1) solver

def addComTestClauses : IpasirSolver :=
  (List.finRange n).foldl (fun (solver : IpasirSolver) (i : Fin n) =>
    let solver := satAddClause2 solver (-inVars i) (-outVars i)
    if grounded.labIn.get i then satAddClause1 solver (inVars i)
    else if grounded.labOut.get i then satAddClause1 solver (outVars i)
    else
      let p := (aaf.parents i).foldl (fun (p : IpasirSolver × List ℤ × List ℤ) j =>
        let solver := satAddClause2 p.1 (-inVars i) (outVars j)
        let solver := satAddClause2 solver (-inVars j) (outVars i)
        (solver, p.2.1 ++ [inVars j], p.2.2 ++ [-outVars j])) (solver, [-outVars i], [inVars i])
      let solver := satAddClause p.1 p.2.1 p.2.1.length
      satAddClause solver p.2.2 p.2.2.length) solver

end Encoders

section Clauses
variable (inVars outVars : Fin n → ℤ) (aaf : AAF n) (grounded : Labeling)

def admClauses (i : Fin n) : List Clause :=
  [-inVars i, -outVars i] ::
    if grounded.labIn.get i then [[inVars i]]
    else if grounded.labOut.get i then [[outVars i]]
    else (aaf.parents i).map (fun j => [-inVars i, outVars j]) ++
      [-outVars i :: (aaf.parents i).map inVars]

def cfClauses (i : Fin n) : List Clause :=
  [-inVars i, -outVars i] ::
    ((aaf.parents i).map (fun j => [-inVars j, outVars i]) ++
      [-outVars i :: (aaf.parents i).map inVars])

/-- The attacks in the order the encoder visits them, each with its attacked argument. -/
def attackPairs (aaf : AAF n) : List (Fin n × Fin n) :=
  (List.finRange n).flatMap fun i => (aaf.parents i).map fun j => (j, i)

def attackDefinition (inAttackedVars : Fin n → ℤ) (idx : ℤ) (a : Fin n × Fin n) : List Clause :=
  [[-idx, inVars a.1], [-idx, inAttackedVars a.2], [idx, -inAttackedVars a.2, -inVars a.1]]

def attackDefinitions (inAttackedVars : Fin n → ℤ) : ℤ → List (Fin n × Fin n) → List Clause
  | _, [] => []
  | idx, a :: as => attackDefinition inVars inAttackedVars idx a ++
      attackDefinitions inAttackedVars (idx + 1) as

def allGrounded (n : ℕ) (grounded : Labeling) : Bool :=
  (List.finRange n).all fun i : Fin n => grounded.labIn.get i || grounded.labOut.get i

end Clauses

section Equations
variable {solver : IpasirSolver} {inVars outVars : Fin n → ℤ} {aaf : AAF n} {grounded : Labeling}

/-- A loop over parents that adds a binary clause for each and collects literals. -/
theorem foldl_parents {f g h : Fin n → ℤ} (hf : ∀ j, f j ≠ 0) (hg : ∀ j, g j ≠ 0)
    (xs : List (Fin n)) (s : IpasirSolver) (c : List ℤ) :
    xs.foldl (fun (p : IpasirSolver × List ℤ) j =>
      (satAddClause2 p.1 (f j) (g j), p.2 ++ [h j])) (s, c) =
      (s.pushAll (xs.map fun j => [f j, g j]), c ++ xs.map h) := by
  induction xs generalizing s c with
  | nil => simp
  | cons x xs ih => simp [ih, satAddClause2_eq (hf x) (hg x)]

/-- A loop over the arguments that adds the clauses `cs i` and clears a flag at some `i`. -/
theorem foldl_clauses {f : Bool × IpasirSolver → Fin n → Bool × IpasirSolver}
    (cs : Fin n → List Clause) (decided : Fin n → Bool)
    (hf : ∀ st i, f st i = (st.1 && decided i, st.2.pushAll (cs i))) (xs : List (Fin n))
    (b : Bool) (s : IpasirSolver) :
    xs.foldl f (b, s) = (b && xs.all decided, s.pushAll (xs.flatMap cs)) := by
  induction xs generalizing b s with
  | nil => simp
  | cons x xs ih =>
    rw [List.foldl_cons, hf, ih, List.all_cons, List.flatMap_cons,
      IpasirSolver.pushAll_append, Bool.and_assoc]

theorem addAdmTestClauses_eq (hv : LabelVars inVars outVars) :
    addAdmTestClauses solver inVars outVars aaf grounded =
      (allGrounded n grounded,
        solver.pushAll ((List.finRange n).flatMap (admClauses inVars outVars aaf grounded))) := by
  rw [addAdmTestClauses, foldl_clauses (admClauses inVars outVars aaf grounded)
    (fun i => grounded.labIn.get i || grounded.labOut.get i), Bool.true_and, allGrounded]
  intro st i
  have hneg : -inVars i ≠ 0 := neg_ne_zero.2 (hv.in_ne i)
  have hneg' : -outVars i ≠ 0 := neg_ne_zero.2 (hv.out_ne i)
  dsimp only
  rw [satAddClause2_eq hneg hneg', admClauses]
  split_ifs with h₁ h₂
  · rw [satAddClause1_eq (hv.in_ne i)]
    simp [h₁]
  · rw [satAddClause1_eq (hv.out_ne i)]
    simp [h₂]
  · rw [foldl_parents (f := fun _ => -inVars i) (g := outVars) (fun _ => hneg) hv.out_ne,
      satAddClauseZT_eq]
    · simp [h₁, h₂, IpasirSolver.pushAll_append]
    · intro l hl
      rcases List.mem_append.1 hl with hl | hl
      · rw [List.mem_singleton.1 hl]
        exact hneg'
      · exact ne_zero_of_mem_map hv.in_ne hl

theorem addCfTestClauses_eq (hv : LabelVars inVars outVars) :
    addCfTestClauses solver inVars outVars aaf grounded =
      (allGrounded n grounded,
        solver.pushAll ((List.finRange n).flatMap (cfClauses inVars outVars aaf))) := by
  rw [addCfTestClauses, foldl_clauses (cfClauses inVars outVars aaf)
    (fun i => grounded.labIn.get i || grounded.labOut.get i), Bool.true_and, allGrounded]
  intro st i
  have hneg : ∀ j, -inVars j ≠ 0 := fun j => neg_ne_zero.2 (hv.in_ne j)
  have hneg' : -outVars i ≠ 0 := neg_ne_zero.2 (hv.out_ne i)
  dsimp only
  rw [satAddClause2_eq (hneg i) hneg',
    foldl_parents (f := fun j => -inVars j) (g := fun _ => outVars i) hneg fun _ => hv.out_ne i,
    satAddClauseZT_eq]
  · rw [Prod.mk.injEq]
    refine ⟨?_, by simp [cfClauses, IpasirSolver.pushAll_append]⟩
    rcases grounded.labIn.get i <;> rcases grounded.labOut.get i <;> simp
  · intro l hl
    rcases List.mem_append.1 hl with hl | hl
    · rw [List.mem_singleton.1 hl]
      exact hneg'
    · exact ne_zero_of_mem_map hv.in_ne hl

end Equations

/-- The labeling computed as the grounded one: IN is the grounded extension, OUT what it
attacks. -/
def Grounds (aaf : AAF n) (grounded : Labeling) : Prop :=
  grounded.Represents aaf.framework.grounded (aaf.framework.attackedBy aaf.framework.grounded)

section Semantics
variable {τ : Assignment} {inVars outVars : Fin n → ℤ} {aaf : AAF n} {grounded : Labeling}

theorem LabelVars.lit_neg_in (h : LabelVars inVars outVars) (i : Fin n) :
    τ.lit (-inVars i) = true ↔ i ∉ selected τ inVars := by
  rw [τ.lit_neg (h.in_pos i), mem_selected, Bool.not_eq_true', Bool.not_eq_true]

theorem LabelVars.lit_neg_out (h : LabelVars inVars outVars) (i : Fin n) :
    τ.lit (-outVars i) = true ↔ i ∉ selected τ outVars := by
  rw [τ.lit_neg (h.out_pos i), mem_selected, Bool.not_eq_true', Bool.not_eq_true]

theorem forall_argument_clauses {cs : Fin n → List Clause} {P : Fin n → Prop}
    (h : ∀ i, (∀ c ∈ cs i, τ.Satisfies c) ↔ P i) :
    (∀ c ∈ (List.finRange n).flatMap cs, τ.Satisfies c) ↔ ∀ i, P i := by
  rw [List.forall_mem_flatMap]
  exact ⟨fun hall i => (h i).1 (hall i (List.mem_finRange i)), fun hall i _ => (h i).2 (hall i)⟩

theorem satisfies_exclusive (hv : LabelVars inVars outVars) (i : Fin n) (ds : List Clause) :
    (∀ c ∈ [-inVars i, -outVars i] :: ds, τ.Satisfies c) ↔
      (i ∈ selected τ inVars → i ∉ selected τ outVars) ∧ ∀ c ∈ ds, τ.Satisfies c := by
  rw [List.forall_mem_cons, Assignment.satisfies_cons, Assignment.satisfies_cons, hv.lit_neg_in,
    hv.lit_neg_out, imp_iff_not_or]
  simp only [Assignment.satisfies_nil, or_false]

open Classical in
/-- Units for the arguments that the grounded labeling decides, other clauses for the rest. -/
theorem satisfies_grounded (hg : Grounds aaf grounded) (i : Fin n) (ds : List Clause) :
    (∀ c ∈ (if grounded.labIn.get i then [[inVars i]]
      else if grounded.labOut.get i then [[outVars i]] else ds), τ.Satisfies c) ↔
      if i ∈ aaf.framework.grounded then i ∈ selected τ inVars
      else if i ∈ aaf.framework.attackedBy aaf.framework.grounded then i ∈ selected τ outVars
      else ∀ c ∈ ds, τ.Satisfies c := by
  simp only [hg.in_iff, hg.out_iff]
  split_ifs
  · simp
  · simp
  · rfl

/-- A clause for each attacker, and one about all of them. -/
theorem forall_parent_clauses (xs : List (Fin n)) (f : Fin n → Clause) (c : Clause) :
    (∀ d ∈ xs.map f ++ [c], τ.Satisfies d) ↔ (∀ j ∈ xs, τ.Satisfies (f j)) ∧ τ.Satisfies c := by
  rw [List.forall_mem_append, List.forall_mem_map, List.forall_mem_singleton]

theorem admClauses_iff (hv : LabelVars inVars outVars) (hg : Grounds aaf grounded) :
    (∀ c ∈ (List.finRange n).flatMap (admClauses inVars outVars aaf grounded), τ.Satisfies c) ↔
      aaf.framework.AdmissibleLabelling (selected τ inVars) (selected τ outVars) := by
  classical
  have hundecided : ∀ i, (∀ c ∈ (aaf.parents i).map (fun j => [-inVars i, outVars j]) ++
      [-outVars i :: (aaf.parents i).map inVars], τ.Satisfies c) ↔
      (∀ j ∈ aaf.parents i, i ∈ selected τ inVars → j ∈ selected τ outVars) ∧
        (i ∈ selected τ outVars → i ∈ aaf.framework.attackedBy (selected τ inVars)) := by
    intro i
    rw [forall_parent_clauses, AAF.mem_attackedBy_iff]
    simp [hv.lit_neg_in, hv.lit_neg_out, Assignment.satisfies_map, imp_iff_not_or]
  rw [forall_argument_clauses fun i => by
    rw [admClauses, satisfies_exclusive hv, satisfies_grounded hg, hundecided],
    forall_and, Framework.grounded_units_iff]
  constructor
  · rintro ⟨hd, hG, hGo, h⟩
    refine ⟨hG, hGo, hd, fun i hi j hji => ?_, fun i hi => ?_⟩
    · by_cases hin : i ∈ aaf.framework.grounded
      · exact hGo (Framework.grounded_complete.admissible.defends i hin j hji)
      · exact (h i hin fun hout => hd i hi (hGo hout)).1 j hji hi
    · by_cases hout : i ∈ aaf.framework.attackedBy aaf.framework.grounded
      · exact Framework.attackedBy_mono hG hout
      · exact (h i (fun hin => hd i (hG hin) hi) hout).2 hi
  · intro h
    exact ⟨h.disjoint, h.grounded_in, h.grounded_out, fun i _ _ =>
      ⟨fun j hj hi => h.attackers_out i hi j hj, fun hi => h.out_attacked hi⟩⟩

theorem cfClauses_iff (hv : LabelVars inVars outVars) :
    (∀ c ∈ (List.finRange n).flatMap (cfClauses inVars outVars aaf), τ.Satisfies c) ↔
      aaf.framework.ConflictFreeLabelling (selected τ inVars) (selected τ outVars) := by
  have hargument : ∀ i, (∀ c ∈ cfClauses inVars outVars aaf i, τ.Satisfies c) ↔
      (i ∈ selected τ inVars → i ∉ selected τ outVars) ∧
        (∀ j ∈ aaf.parents i, j ∈ selected τ inVars → i ∈ selected τ outVars) ∧
          (i ∈ selected τ outVars → i ∈ aaf.framework.attackedBy (selected τ inVars)) := by
    intro i
    rw [cfClauses, satisfies_exclusive hv, forall_parent_clauses, AAF.mem_attackedBy_iff]
    simp [hv.lit_neg_in, hv.lit_neg_out, Assignment.satisfies_map, imp_iff_not_or]
  rw [forall_argument_clauses hargument]
  constructor
  · intro h
    have hout : selected τ outVars = aaf.framework.attackedBy (selected τ inVars) := by
      ext i
      refine ⟨(h i).2.2, ?_⟩
      rintro ⟨j, hj, hji⟩
      exact (h i).2.1 j hji hj
    exact ⟨fun j hj i hi hji => (h i).1 hi ((h i).2.1 j hji hj), hout⟩
  · intro h i
    rw [h.out_eq]
    exact ⟨h.conflictFree.notMem_attackedBy, fun j hji hj => ⟨j, hj, hji⟩, id⟩

theorem allGrounded_iff (hg : Grounds aaf grounded) :
    allGrounded n grounded = true ↔ aaf.framework.GroundedTotal := by
  simp [allGrounded, Framework.GroundedTotal, Framework.range, hg.in_iff, hg.out_iff]

end Semantics

/-- An encoder whose clauses are satisfied by the labellings in `L`, and whose result tells
whether the grounded labeling is total. -/
structure Encodes (grounded : Labeling) (inVars outVars : Fin n → ℤ)
    (L : Set (Fin n) → Set (Fin n) → Prop) (encode : IpasirSolver → Bool × IpasirSolver)
    (cs : List Clause) : Prop where
  eq : ∀ s, encode s = (allGrounded n grounded, s.pushAll cs)
  satisfied_iff : ∀ τ : Assignment,
    (∀ c ∈ cs, τ.Satisfies c) ↔ L (selected τ inVars) (selected τ outVars)

section Encodes
variable {inVars outVars : Fin n → ℤ} {aaf : AAF n} {grounded : Labeling}

theorem addAdmTestClauses_encodes (hv : LabelVars inVars outVars) (hg : Grounds aaf grounded) :
    Encodes grounded inVars outVars aaf.framework.AdmissibleLabelling
      (fun s => addAdmTestClauses s inVars outVars aaf grounded)
      ((List.finRange n).flatMap (admClauses inVars outVars aaf grounded)) :=
  ⟨fun _ => addAdmTestClauses_eq hv, fun _ => admClauses_iff hv hg⟩

theorem addCfTestClauses_encodes (hv : LabelVars inVars outVars) :
    Encodes grounded inVars outVars aaf.framework.ConflictFreeLabelling
      (fun s => addCfTestClauses s inVars outVars aaf grounded)
      ((List.finRange n).flatMap (cfClauses inVars outVars aaf)) :=
  ⟨fun _ => addCfTestClauses_eq hv, fun _ => cfClauses_iff hv⟩

end Encodes

end TaasFudge
