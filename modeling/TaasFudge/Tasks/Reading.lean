import TaasFudge.Tasks.General

/-! # Reading a model

The loops by which tasks read the values of the last model, and what they compute
while the solver object is in the state SAT. In a model without open variables the
positive arguments are those selected.
-/

namespace TaasFudge

open Dimacs

variable {n : ℕ}

/-- Whether witnesses are printed, a compile-time constant. -/
def printWitness : Bool := true

def answer (b : Bool) : String := if b then "YES\n" else "NO\n"

/-- `if (do_print) { printf(answer); witness }` -/
def report (doPrint b : Bool) (witness : Prog World Unit) : Prog World Unit :=
  if doPrint then do
    printf (answer b)
    witness
  else pure ()

/-- What a decision has printed: nothing, or its answer and a text with the property `P`. -/
def Reported (doPrint b : Bool) (P : String → Prop) (w w' : World) : Prop :=
  if doPrint then ∃ text, P text ∧ w'.stdout = w.stdout ++ (answer b ++ text)
  else w'.stdout = w.stdout

theorem Reported.of_eq {doPrint b : Bool} {P : String → Prop} {w₀ w w' : World}
    (h : Reported doPrint b P w w') (hw : w.stdout = w₀.stdout) : Reported doPrint b P w₀ w' := by
  rwa [Reported, ← hw]

theorem Reported.mono {doPrint b : Bool} {P P' : String → Prop} {w w' : World}
    (h : Reported doPrint b P w w') (hP : ∀ text, P text → P' text) :
    Reported doPrint b P' w w' := by
  cases doPrint with
  | false => exact h
  | true =>
    obtain ⟨text, htext, hw⟩ := h
    exact ⟨text, hP text htext, hw⟩

theorem total_report {doPrint b : Bool} {witness : Prog World Unit} {P : String → Prop} {w : World}
    (h : ∀ w', Prog.Total witness (fun _ w'' => ∃ text, P text ∧
      w''.stdout = w'.stdout ++ text) w') :
    Prog.Total (report doPrint b witness) (fun _ => Reported doPrint b P w) w := by
  cases doPrint with
  | false => exact Prog.total_pure.2 rfl
  | true =>
    refine Prog.total_atomic_bind.2 ((h _).mono ?_)
    rintro _ w' ⟨text, hP, hw'⟩
    exact ⟨text, hP, by rw [hw', String.append_assoc]⟩

theorem total_report_pure {doPrint b : Bool} {P : String → Prop} {w : World} (hP : P "") :
    Prog.Total (report doPrint b (pure ())) (fun _ => Reported doPrint b P w) w :=
  total_report fun w' => Prog.total_pure.2 ⟨"", hP, by simp⟩

def satEitherPos (solver : IpasirSolver) (var1 var2 : ℤ) : Prog World Bool :=
  satPos solver var1 <||> satPos solver var2

section Loops
variable (solver : IpasirSolver) (vars : Fin n → ℤ)

/-- `for (i...) if (sat__get(solver, vars[i]) > 0) raset__add(s, i);` -/
def readPositives (s : RaSet n) : Prog World (RaSet n) :=
  (List.finRange n).foldlM (fun (s : RaSet n) (i : Fin n) => do
    let pos ← satPos solver (vars i)
    pure (if pos then s.add i else s)) s

/-- `for (i...) if (sat__get(solver, vars[i]) > 0) sat__assume(other, vars[i]);` -/
def assumePositives (other : IpasirSolver) : Prog World IpasirSolver :=
  (List.finRange n).foldlM (fun (other : IpasirSolver) (i : Fin n) => do
    let pos ← satPos solver (vars i)
    if pos then satAssume other (vars i) else pure other) other

/-- `for (i...) if (sat__get(solver, vars[i]) < 0) sat__add(other, vars[i]); sat__add(other, 0);` -/
def addNegatives (other : IpasirSolver) : Prog World IpasirSolver := do
  let other ← (List.finRange n).foldlM (fun (other : IpasirSolver) (i : Fin n) => do
    let neg ← satNeg solver (vars i)
    pure (if neg then satAdd other (vars i) else other)) other
  pure (satAdd other 0)

/-- `for (i...) if (sat__get(solver, vars[i]) < 0) clause[idx++] = vars[i];` -/
def readNegatives : Prog World (List ℤ) :=
  (List.finRange n).foldlM (fun (clause : List ℤ) (i : Fin n) => do
    let neg ← satNeg solver (vars i)
    pure (if neg then clause ++ [vars i] else clause)) []

/-- Print the arguments with a positive value, each followed by a blank. -/
def printModel (name : Fin n → String) : Prog World Unit := do
  printf "w "
  (List.finRange n).foldlM (fun (_ : Unit) (i : Fin n) => do
    let pos ← satPos solver (vars i)
    if pos then printf (name i ++ " ") else pure ()) ()
  printf "\n"

end Loops

/-- Arguments printed by number, counted from one. -/
def argNumber (i : Fin n) : String := toString ((i : ℕ) + 1)

def positives (m : PartialModel) (vars : Fin n → ℤ) : List (Fin n) :=
  (List.finRange n).filter fun i : Fin n => decide (0 < m.value (vars i))

def negatives (m : PartialModel) (vars : Fin n → ℤ) : List (Fin n) :=
  (List.finRange n).filter fun i : Fin n => decide (m.value (vars i) < 0)

section Values
variable {τ υ : Assignment} {vars : Fin n → ℤ}

theorem mem_positives (hpos : ∀ i, 0 < vars i) {i : Fin n} :
    i ∈ positives τ.model vars ↔ i ∈ selected τ vars := by
  simp [positives, τ.value_pos_iff (hpos i)]

theorem mem_negatives (hpos : ∀ i, 0 < vars i) {i : Fin n} :
    i ∈ negatives τ.model vars ↔ i ∉ selected τ vars := by
  simp [negatives, τ.value_neg_iff (hpos i)]

/-- The clause of the negative arguments asks for one that was not selected. -/
theorem satisfies_negatives (hpos : ∀ i, 0 < vars i) :
    υ.Satisfies ((negatives τ.model vars).map vars) ↔ ¬ selected υ vars ⊆ selected τ vars := by
  rw [Assignment.satisfies_map, Set.not_subset]
  constructor
  · rintro ⟨i, hi, hυ⟩
    exact ⟨i, hυ, (mem_negatives hpos).1 hi⟩
  · rintro ⟨i, hυ, hi⟩
    exact ⟨i, (mem_negatives hpos).2 hi, hυ⟩

/-- Assuming the positive arguments asks for all that were selected. -/
theorem lit_positives (hpos : ∀ i, 0 < vars i) :
    (∀ l ∈ (positives τ.model vars).map vars, υ.lit l = true) ↔
      selected τ vars ⊆ selected υ vars := by
  rw [List.forall_mem_map]
  exact forall_congr' fun i => imp_congr_left (mem_positives hpos)

end Values

section InSat
variable {solver other : IpasirSolver} {vars : Fin n → ℤ}

theorem satEitherPos_of_sat (h : solver.state = .sat) (v w : ℤ) : satEitherPos solver v w =
    pure (decide (0 < solver.model.value v) || decide (0 < solver.model.value w)) := by
  rw [satEitherPos, orM, satPos_of_sat h, satPos_of_sat h, pure_bind]
  rcases decide (0 < solver.model.value v) <;> rfl

theorem readPositives_of_sat (h : solver.state = .sat) (s : RaSet n) :
    readPositives solver vars s = pure ((positives solver.model vars).foldl RaSet.add s) := by
  simp only [readPositives, satPos_of_sat h, pure_bind, List.foldlM_pure, positives,
    List.foldl_filter]

/-- What is read into the empty set are the selected arguments. -/
theorem toSet_foldl_positives {τ : Assignment} (hpos : ∀ i, 0 < vars i) :
    ((positives τ.model vars).foldl RaSet.add (RaSet.initEmpty n)).toSet = selected τ vars := by
  ext i
  simp only [RaSet.mem_toSet, RaSet.mem_foldl_add, RaSet.mem_initEmpty, false_or,
    mem_positives hpos]

theorem addNegatives_of_sat (h : solver.state = .sat) (hv : ∀ i, vars i ≠ 0) :
    addNegatives solver vars other = pure (other.push ((negatives solver.model vars).map vars)) := by
  simp only [addNegatives, satNeg_of_sat h, pure_bind, List.foldlM_pure]
  rw [satAdd_zero_foldl_filter _ _ hv, negatives]

theorem assumePositives_of_sat (h : solver.state = .sat) (hc : other.openClause = []) :
    assumePositives solver vars other =
      pure (other.assumeAll ((positives solver.model vars).map vars)) := by
  simp only [assumePositives, satPos_of_sat h, pure_bind, positives]
  induction List.finRange n generalizing other with
  | nil => rfl
  | cons i is ih =>
    rw [List.foldlM_cons, List.filter_cons]
    split_ifs
    · rw [satAssume_of_closed hc, pure_bind, List.map_cons]
      exact ih hc
    · rw [pure_bind, ih hc]

theorem printf_bind_printf (s t : String) : (do printf s; printf t) = printf (s ++ t) := by
  funext k w
  change (some (), { w with stdout := w.stdout ++ s ++ t }) = _
  rw [String.append_assoc]
  rfl

/-- The arguments of a list after "w ", each followed by a blank. -/
def terminatedLine (name : Fin n → String) (l : List (Fin n)) : String :=
  l.foldl (fun acc i => acc ++ (name i ++ " ")) "w " ++ "\n"

theorem printModel_of_sat (h : solver.state = .sat) (name : Fin n → String) :
    printModel solver vars name =
      printf (terminatedLine name (positives solver.model vars)) := by
  have hfold : ∀ (xs : List (Fin n)) (acc : String), (do
      printf acc
      xs.foldlM (fun (_ : Unit) (i : Fin n) => do
        let pos ← satPos solver (vars i)
        if pos then printf (name i ++ " ") else pure ()) ()) =
      printf ((xs.filter fun i : Fin n => decide (0 < solver.model.value (vars i))).foldl
        (fun acc i => acc ++ (name i ++ " ")) acc) := by
    intro xs
    induction xs with
    | nil => exact fun acc => bind_pure_unit
    | cons x xs ih =>
      intro acc
      rw [List.foldlM_cons, satPos_of_sat h, pure_bind, List.filter_cons]
      split_ifs with hx
      · rw [← bind_assoc, printf_bind_printf, List.foldl_cons]
        exact ih _
      · rw [pure_bind]
        exact ih acc
  rw [printModel, ← bind_assoc, hfold, printf_bind_printf, terminatedLine, positives]

end InSat

/-- A line that gives the set `E` as a witness, with the arguments printed by number. -/
def NumberedLine (E : Set (Fin n)) (line : String) : Prop :=
  ∃ l, Lists l E ∧ line = terminatedLine argNumber l

/-- The positive arguments of a model are listed in order. -/
theorem lists_positives {τ : Assignment} {vars : Fin n → ℤ} (hpos : ∀ i, 0 < vars i) :
    Lists (positives τ.model vars) (selected τ vars) :=
  ⟨(List.nodup_finRange n).filter _, fun _ => mem_positives hpos⟩

theorem foldl_units {inVars : Fin n → ℤ} (hv : ∀ i, inVars i ≠ 0) (xs : List (Fin n))
    (solver : IpasirSolver) :
    xs.foldl (fun solver i => satAddClause1 solver (inVars i)) solver =
      solver.pushAll (xs.map fun i => [inVars i]) := by
  simp only [satAddClause1_eq (hv _), IpasirSolver.pushAll, List.foldl_map]

theorem satisfies_units {inVars : Fin n → ℤ} {τ : Assignment} (xs : List (Fin n)) :
    (∀ c ∈ xs.map (fun i => [inVars i]), τ.Satisfies c) ↔ ∀ i ∈ xs, i ∈ selected τ inVars := by
  simp

theorem foldl_flagged {v : Fin n → ℤ} (xs : List (Fin n)) (b : Bool) (s : IpasirSolver) :
    xs.foldl (fun (st : Bool × IpasirSolver) i => (false, satAdd st.2 (v i))) (b, s) =
      (b && xs.isEmpty, (xs.map v).foldl satAdd s) := by
  induction xs generalizing b s with
  | nil => simp
  | cons x xs ih => rw [List.foldl_cons, ih]; simp

def labels (inVars outVars : Fin n → ℤ) (τ : Assignment) : Set (Fin n) × Set (Fin n) :=
  (selected τ inVars, selected τ outVars)

@[simp] theorem labels_fst (inVars outVars : Fin n → ℤ) (τ : Assignment) :
    (labels inVars outVars τ).1 = selected τ inVars := rfl

@[simp] theorem labels_snd (inVars outVars : Fin n → ℤ) (τ : Assignment) :
    (labels inVars outVars τ).2 = selected τ outVars := rfl

theorem LabelVars.labels_surjective {inVars outVars : Fin n → ℤ} (h : LabelVars inVars outVars) :
    Function.Surjective (labels inVars outVars) := by
  rintro ⟨S, O⟩
  obtain ⟨τ, hS, hO⟩ := h.exists_assignment S O
  exact ⟨τ, by rw [labels, hS, hO]⟩

/-- A solver object that has been given an encoder's clauses describes its labellings. -/
theorem Encodes.describes {grounded : Labeling} {inVars outVars : Fin n → ℤ}
    {L : Set (Fin n) → Set (Fin n) → Prop} {encode : IpasirSolver → Bool × IpasirSolver}
    {cs : List Clause} (h : Encodes grounded inVars outVars L encode cs)
    (hv : LabelVars inVars outVars) :
    (encode satInit).2.Describes (labels inVars outVars) fun b => L b.1 b.2 := by
  rw [h.eq]
  refine ((IpasirSolver.describes_satInit hv.labels_surjective).pushAll
    (P := fun b => L b.1 b.2) h.satisfied_iff).congr fun b => ?_
  rw [true_and]

end TaasFudge
