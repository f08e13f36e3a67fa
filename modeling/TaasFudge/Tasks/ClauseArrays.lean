import TaasFudge.Taas.Grounded
import TaasFudge.Taas.Inout
import TaasFudge.Tasks.General

/-! # The arrays of the encoders

An encoder collects a long clause in an array before it adds it. The size of the array is
given by the number of arguments, its use by the number of attackers. Here the encoders run
with their arrays and record whether all cells they write were allocated.
-/

namespace TaasFudge

open Dimacs

variable {n : ℕ}

/-- An array of ints with the cells below its index. -/
structure ClauseArray where
  allocated : ℕ
  cells : List ℤ
  inBounds : Bool

namespace ClauseArray

def malloc (allocated : ℕ) : ClauseArray := ⟨allocated, [], true⟩

/-- `clause[idx++] = lit;` -/
def write (a : ClauseArray) (lit : ℤ) : ClauseArray where
  allocated := a.allocated
  cells := a.cells ++ [lit]
  inBounds := a.inBounds && decide (a.cells.length < a.allocated)

/-- `idx = 0;` -/
def rewind (a : ClauseArray) : ClauseArray := { a with cells := [] }

def writeAll (a : ClauseArray) (lits : List ℤ) : ClauseArray := lits.foldl write a

variable (a : ClauseArray) (lit : ℤ) (lits : List ℤ)

@[simp] theorem malloc_allocated (k : ℕ) : (malloc k).allocated = k := rfl
@[simp] theorem malloc_cells (k : ℕ) : (malloc k).cells = [] := rfl
@[simp] theorem malloc_inBounds (k : ℕ) : (malloc k).inBounds = true := rfl
@[simp] theorem rewind_allocated : a.rewind.allocated = a.allocated := rfl
@[simp] theorem rewind_cells : a.rewind.cells = [] := rfl
@[simp] theorem rewind_inBounds : a.rewind.inBounds = a.inBounds := rfl
@[simp] theorem write_allocated : (a.write lit).allocated = a.allocated := rfl
@[simp] theorem write_cells : (a.write lit).cells = a.cells ++ [lit] := rfl

theorem write_inBounds :
    (a.write lit).inBounds = (a.inBounds && decide (a.cells.length < a.allocated)) := rfl

@[simp] theorem writeAll_nil : a.writeAll [] = a := rfl

theorem writeAll_append_singleton : a.writeAll (lits ++ [lit]) = (a.writeAll lits).write lit := by
  rw [writeAll, List.foldl_append]
  rfl

theorem write_writeAll : (a.write lit).writeAll lits = a.writeAll (lit :: lits) := rfl

@[simp] theorem writeAll_allocated : (a.writeAll lits).allocated = a.allocated := by
  induction lits using List.reverseRecOn with
  | nil => rfl
  | append_singleton lits lit ih => rw [writeAll_append_singleton, write_allocated, ih]

@[simp] theorem writeAll_cells : (a.writeAll lits).cells = a.cells ++ lits := by
  induction lits using List.reverseRecOn with
  | nil => simp
  | append_singleton lits lit ih =>
    rw [writeAll_append_singleton, write_cells, ih, List.append_assoc]

/-- From the start of an array everything fits that is not longer than it. -/
theorem writeAll_inBounds (h : a.cells = []) :
    (a.writeAll lits).inBounds = (a.inBounds && decide (lits.length ≤ a.allocated)) := by
  induction lits using List.reverseRecOn with
  | nil => simp
  | append_singleton lits lit ih =>
    have hfits : (lits.length ≤ a.allocated ∧ lits.length < a.allocated) ↔
        lits.length + 1 ≤ a.allocated := by omega
    simp only [writeAll_append_singleton, write_inBounds, ih, writeAll_cells, writeAll_allocated,
      h, List.nil_append, List.length_append, List.length_singleton, Bool.and_assoc,
      ← Bool.decide_and, hfits]

end ClauseArray

section Encoders
variable (solver : IpasirSolver) (inVars outVars : Fin n → ℤ) (aaf : AAF n) (grounded : Labeling)

/-- `add_admTestClauses`, with whether all writes were in bounds. -/
def addAdmTestArrays : Bool × IpasirSolver × Bool :=
  (List.finRange n).foldl (fun (st : Bool × IpasirSolver × Bool) (i : Fin n) =>
    let solver := satAddClause2 st.2.1 (-inVars i) (-outVars i)
    if grounded.labIn.get i then (st.1, satAddClause1 solver (inVars i), st.2.2)
    else if grounded.labOut.get i then (st.1, satAddClause1 solver (outVars i), st.2.2)
    else
      let outClause := (ClauseArray.malloc (2 + n)).write (-outVars i)
      let p := (aaf.parents i).foldl (fun (p : IpasirSolver × ClauseArray) j =>
        (satAddClause2 p.1 (-inVars i) (outVars j), p.2.write (inVars j))) (solver, outClause)
      let outClause := p.2.write 0
      (false, satAddClauseZT p.1 outClause.cells, st.2.2 && outClause.inBounds))
    (true, solver, true)

/-- `add_cfTestClauses`, with whether all writes were in bounds. -/
def addCfTestArrays : Bool × IpasirSolver × Bool :=
  (List.finRange n).foldl (fun (st : Bool × IpasirSolver × Bool) (i : Fin n) =>
    let solver := satAddClause2 st.2.1 (-inVars i) (-outVars i)
    let allGrounded :=
      if !grounded.labIn.get i && !grounded.labOut.get i then false else st.1
    let outClause := (ClauseArray.malloc (2 + n)).write (-outVars i)
    let p := (aaf.parents i).foldl (fun (p : IpasirSolver × ClauseArray) j =>
      (satAddClause2 p.1 (-inVars j) (outVars i), p.2.write (inVars j))) (solver, outClause)
    let outClause := p.2.write 0
    (allGrounded, satAddClauseZT p.1 outClause.cells, st.2.2 && outClause.inBounds))
    (true, solver, true)

def addStbTestArrays : IpasirSolver × ClauseArray :=
  (List.finRange n).foldl (fun (st : IpasirSolver × ClauseArray) (i : Fin n) =>
    let solver :=
      if grounded.labIn.get i then satAddClause1 st.1 (inVars i)
      else if grounded.labOut.get i then satAddClause1 st.1 (-inVars i)
      else st.1
    let p := (aaf.parents i).foldl (fun (p : IpasirSolver × ClauseArray × Bool) j =>
      (satAddClause2 p.1 (-inVars i) (-inVars j), p.2.1.write (inVars j), false))
      (solver, st.2.rewind.write (inVars i), true)
    if !p.2.2 then (satAddClause p.1 p.2.1.cells p.2.1.cells.length, p.2.1) else (p.1, p.2.1))
    (solver, ClauseArray.malloc (1 + n))

def addComTestArrays : IpasirSolver × ClauseArray × ClauseArray :=
  (List.finRange n).foldl (fun (st : IpasirSolver × ClauseArray × ClauseArray) (i : Fin n) =>
    let solver := satAddClause2 st.1 (-inVars i) (-outVars i)
    if grounded.labIn.get i then (satAddClause1 solver (inVars i), st.2)
    else if grounded.labOut.get i then (satAddClause1 solver (outVars i), st.2)
    else
      let p := (aaf.parents i).foldl (fun (p : IpasirSolver × ClauseArray × ClauseArray) j =>
        let solver := satAddClause2 p.1 (-inVars i) (outVars j)
        let solver := satAddClause2 solver (-inVars j) (outVars i)
        (solver, p.2.1.write (inVars j), p.2.2.write (-outVars j)))
        (solver, st.2.1.rewind.write (-outVars i), st.2.2.rewind.write (inVars i))
      let solver := satAddClause p.1 p.2.1.cells p.2.1.cells.length
      (satAddClause solver p.2.2.cells p.2.2.cells.length, p.2))
    (solver, ClauseArray.malloc (1 + n), ClauseArray.malloc (1 + n))

end Encoders

/-- Two loops over the arguments, one with arrays and one without: what they have in common,
and a flag that stays up as long as the arrays suffice. -/
theorem foldl_arrays {σ τ : Type} {f : σ → Fin n → σ} {g : τ → Fin n → τ} (erase : σ → τ)
    (flag : σ → Bool) (fits : Fin n → Bool) (Inv : σ → Prop)
    (hstep : ∀ st i, Inv st →
      Inv (f st i) ∧ erase (f st i) = g (erase st) i ∧ flag (f st i) = (flag st && fits i))
    (xs : List (Fin n)) {st : σ} (h : Inv st) :
    erase (xs.foldl f st) = xs.foldl g (erase st) ∧
      flag (xs.foldl f st) = (flag st && xs.all fits) := by
  induction xs generalizing st with
  | nil => simp
  | cons i xs ih =>
    have hi := hstep st i h
    have hrest := ih hi.1
    rw [List.foldl_cons, List.foldl_cons, List.all_cons, hrest.1, hrest.2, hi.2.1, hi.2.2,
      Bool.and_assoc]
    exact ⟨rfl, rfl⟩

theorem foldl_pair {α β ι : Type} (f : α → ι → α) (g : β → ι → β) (xs : List ι) (a : α) (b : β) :
    xs.foldl (fun (p : α × β) j => (f p.1 j, g p.2 j)) (a, b) = (xs.foldl f a, xs.foldl g b) := by
  induction xs generalizing a b with
  | nil => rfl
  | cons x xs ih => exact ih (f a x) (g b x)

theorem foldl_write (g : Fin n → ℤ) (xs : List (Fin n)) (a : ClauseArray) :
    xs.foldl (fun a j => a.write (g j)) a = a.writeAll (xs.map g) := by
  rw [ClauseArray.writeAll, List.foldl_map]

theorem foldl_snoc (g : Fin n → ℤ) (xs : List (Fin n)) (c : List ℤ) :
    xs.foldl (fun c j => c ++ [g j]) c = c ++ xs.map g := by
  induction xs generalizing c with
  | nil => rw [List.foldl_nil, List.map_nil, List.append_nil]
  | cons x xs ih => rw [List.foldl_cons, ih, List.append_assoc, List.map_cons, List.singleton_append]

/-- A loop over parents that collects the clause in an array. -/
theorem foldl_parents_array {α : Type} (f : α → Fin n → α) (g : Fin n → ℤ) (xs : List (Fin n))
    (s : α) (a : ClauseArray) :
    xs.foldl (fun (p : α × ClauseArray) j => (f p.1 j, p.2.write (g j))) (s, a) =
      (xs.foldl f s, a.writeAll (xs.map g)) := by
  rw [foldl_pair f fun (a : ClauseArray) j => a.write (g j), foldl_write]

theorem foldl_parents_list {α : Type} (f : α → Fin n → α) (g : Fin n → ℤ) (xs : List (Fin n))
    (s : α) (c : List ℤ) :
    xs.foldl (fun (p : α × List ℤ) j => (f p.1 j, p.2 ++ [g j])) (s, c) =
      (xs.foldl f s, c ++ xs.map g) := by
  rw [foldl_pair f fun (c : List ℤ) j => c ++ [g j], foldl_snoc]

section Equations
variable {solver : IpasirSolver} {inVars outVars : Fin n → ℤ} {aaf : AAF n} {grounded : Labeling}

theorem addAdmTestArrays_eq :
    ((addAdmTestArrays solver inVars outVars aaf grounded).1,
        (addAdmTestArrays solver inVars outVars aaf grounded).2.1) =
      addAdmTestClauses solver inVars outVars aaf grounded ∧
    (addAdmTestArrays solver inVars outVars aaf grounded).2.2 =
      (List.finRange n).all fun i : Fin n => grounded.labIn.get i || grounded.labOut.get i ||
        decide ((aaf.parents i).length ≤ n) := by
  apply foldl_arrays (fun st : Bool × IpasirSolver × Bool => (st.1, st.2.1)) (fun st => st.2.2)
    _ fun _ => True
  · intro st i _
    dsimp only
    split_ifs with hin hout
    · simp [hin]
    · simp [hout]
    · have hfits : (aaf.parents i).length + 2 ≤ 2 + n ↔ (aaf.parents i).length ≤ n := by omega
      rw [foldl_parents_array fun s j => satAddClause2 s (-inVars i) (outVars j),
        foldl_parents_list fun s j => satAddClause2 s (-inVars i) (outVars j),
        ClauseArray.write_writeAll, ← ClauseArray.writeAll_append_singleton,
        ClauseArray.writeAll_cells, ClauseArray.writeAll_inBounds _ _ rfl]
      simp [hin, hout, hfits]
  · trivial

theorem addCfTestArrays_eq :
    ((addCfTestArrays solver inVars outVars aaf grounded).1,
        (addCfTestArrays solver inVars outVars aaf grounded).2.1) =
      addCfTestClauses solver inVars outVars aaf grounded ∧
    (addCfTestArrays solver inVars outVars aaf grounded).2.2 =
      (List.finRange n).all fun i : Fin n => decide ((aaf.parents i).length ≤ n) := by
  apply foldl_arrays (fun st : Bool × IpasirSolver × Bool => (st.1, st.2.1)) (fun st => st.2.2)
    _ fun _ => True
  · intro st i _
    have hfits : (aaf.parents i).length + 2 ≤ 2 + n ↔ (aaf.parents i).length ≤ n := by omega
    dsimp only
    rw [foldl_parents_array fun s j => satAddClause2 s (-inVars j) (outVars i),
      foldl_parents_list fun s j => satAddClause2 s (-inVars j) (outVars i),
      ClauseArray.write_writeAll, ← ClauseArray.writeAll_append_singleton,
      ClauseArray.writeAll_cells, ClauseArray.writeAll_inBounds _ _ rfl]
    simp [hfits]
  · trivial

theorem addStbTestArrays_eq :
    (addStbTestArrays solver inVars aaf grounded).1 =
      addStbTestClauses solver inVars aaf grounded ∧
    (addStbTestArrays solver inVars aaf grounded).2.inBounds =
      (List.finRange n).all fun i : Fin n => decide ((aaf.parents i).length ≤ n) := by
  apply foldl_arrays (fun st : IpasirSolver × ClauseArray => st.1) (fun st => st.2.inBounds)
    _ fun st => st.2.allocated = 1 + n
  · intro st i hst
    have hfits : (aaf.parents i).length + 1 ≤ 1 + n ↔ (aaf.parents i).length ≤ n := by omega
    dsimp only
    rw [foldl_pair (fun s j => satAddClause2 s (-inVars i) (-inVars j))
        fun (p : ClauseArray × Bool) j => (p.1.write (inVars j), false),
      foldl_pair (fun (a : ClauseArray) j => a.write (inVars j)) fun _ _ => false, foldl_write,
      foldl_pair (fun s j => satAddClause2 s (-inVars i) (-inVars j))
        fun (p : List ℤ × Bool) j => (p.1 ++ [inVars j], false),
      foldl_pair (fun (c : List ℤ) j => c ++ [inVars j]) fun _ _ => false, foldl_snoc,
      ClauseArray.write_writeAll, ClauseArray.writeAll_cells]
    split_ifs
    all_goals
      rw [ClauseArray.writeAll_inBounds _ _ rfl]
      simp [hst, hfits]
  · rfl

theorem addComTestArrays_eq :
    (addComTestArrays solver inVars outVars aaf grounded).1 =
      addComTestClauses solver inVars outVars aaf grounded ∧
    ((addComTestArrays solver inVars outVars aaf grounded).2.1.inBounds &&
        (addComTestArrays solver inVars outVars aaf grounded).2.2.inBounds) =
      (List.finRange n).all fun i : Fin n => grounded.labIn.get i || grounded.labOut.get i ||
        decide ((aaf.parents i).length ≤ n) := by
  apply foldl_arrays (fun st : IpasirSolver × ClauseArray × ClauseArray => st.1)
    (fun st => st.2.1.inBounds && st.2.2.inBounds) _
    fun st => st.2.1.allocated = 1 + n ∧ st.2.2.allocated = 1 + n
  · intro st i hst
    dsimp only
    split_ifs with hin hout
    · simp [hin, hst]
    · simp [hout, hst]
    · have hfits : (aaf.parents i).length + 1 ≤ 1 + n ↔ (aaf.parents i).length ≤ n := by omega
      let f := fun (s : IpasirSolver) (j : Fin n) =>
        satAddClause2 (satAddClause2 s (-inVars i) (outVars j)) (-inVars j) (outVars i)
      rw [foldl_pair f
          fun (p : ClauseArray × ClauseArray) j => (p.1.write (inVars j), p.2.write (-outVars j)),
        foldl_parents_array (fun (a : ClauseArray) j => a.write (inVars j)) fun j => -outVars j,
        foldl_write,
        foldl_pair f fun (p : List ℤ × List ℤ) j => (p.1 ++ [inVars j], p.2 ++ [-outVars j]),
        foldl_parents_list (fun (c : List ℤ) j => c ++ [inVars j]) fun j => -outVars j, foldl_snoc,
        ClauseArray.write_writeAll, ClauseArray.write_writeAll]
      simp only [ClauseArray.writeAll_inBounds _ _ (ClauseArray.rewind_cells _)]
      by_cases hle : (aaf.parents i).length ≤ n
      · simp [hin, hout, hfits, hst, hle]
      · simp [hin, hout, hfits, hst, hle]
  · exact ⟨rfl, rfl⟩

end Equations

theorem all_finRange_iff (p : Fin n → Bool) :
    (List.finRange n).all p = true ↔ ∀ i, p i = true := by
  simp

/-- The arrays of all encoders are large enough exactly as long as no argument is attacked on
more lines than there are arguments; where an encoder treats decided arguments apart, those
may be. -/
theorem testArrays_inBounds_iff {file : List Char} {r : ReadAaf n}
    (h : readFileI23 file = some ⟨n, r⟩) (solver : IpasirSolver) (inVars outVars : Fin n → ℤ) :
    let grounded := (computeGrounded r.aaf).1
    let undecided := fun i : Fin n => grounded.labIn.get i = false ∧ grounded.labOut.get i = false
    ((addAdmTestArrays solver inVars outVars r.aaf grounded).2.2 = true ↔
      ∀ i, undecided i → attackLinesOn n file i ≤ n) ∧
    ((addCfTestArrays solver inVars outVars r.aaf grounded).2.2 = true ↔
      ∀ i, attackLinesOn n file i ≤ n) ∧
    ((addStbTestArrays solver inVars r.aaf grounded).2.inBounds = true ↔
      ∀ i, attackLinesOn n file i ≤ n) ∧
    (((addComTestArrays solver inVars outVars r.aaf grounded).2.1.inBounds &&
        (addComTestArrays solver inVars outVars r.aaf grounded).2.2.inBounds) = true ↔
      ∀ i, undecided i → attackLinesOn n file i ≤ n) := by
  dsimp only
  rw [addAdmTestArrays_eq.2, addCfTestArrays_eq.2, addStbTestArrays_eq.2, addComTestArrays_eq.2]
  simp only [all_finRange_iff, Bool.or_eq_true, decide_eq_true_iff,
    readFileI23_length_parents h]
  have hundecided : ∀ (b c : Bool) (P : Prop), ((b = true ∨ c = true) ∨ P) ↔
      (b = false ∧ c = false → P) := by
    intro b c P
    cases b <;> cases c <;> simp
  simp only [hundecided, and_self]

/-- Two lines for one attack fit two arguments. -/
theorem testArrays_inBounds_twoArguments :
    ∃ x ∈ readFileI23 "p af 2\n1 2\n1 2\n".toList,
      (addCfTestArrays satInit (numberPairs x.1 1).1 (numberPairs x.1 1).2.1 x.2.aaf
        (computeGrounded x.2.aaf).1).2.2 = true := by
  have hread : (readFileI23 "p af 2\n1 2\n1 2\n".toList).isSome = true := by decide
  refine ⟨_, Option.get_mem hread, ?_⟩
  exact (testArrays_inBounds_iff (Option.some_get hread).symm satInit _ _).2.1.2 (by decide)

/-- Two lines for one attack are too many for one argument. -/
theorem testArrays_repeatedAttack :
    ∃ x ∈ readFileI23 "p af 1\n1 1\n1 1\n".toList,
      (addAdmTestArrays satInit (fun _ => 1) (fun _ => 2) x.2.aaf
        (computeGrounded x.2.aaf).1).2.2 = false ∧
      (addCfTestArrays satInit (fun _ => 1) (fun _ => 2) x.2.aaf
        (computeGrounded x.2.aaf).1).2.2 = false ∧
      (addStbTestArrays satInit (fun _ => 1) x.2.aaf
        (computeGrounded x.2.aaf).1).2.inBounds = false ∧
      (addComTestArrays satInit (fun _ => 1) (fun _ => 2) x.2.aaf
        (computeGrounded x.2.aaf).1).2.1.inBounds = false :=
  ⟨_, Option.get_mem (by decide), by decide⟩

end TaasFudge
