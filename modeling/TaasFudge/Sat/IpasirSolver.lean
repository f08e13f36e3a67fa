import Mathlib.Data.Set.Card
import TaasFudge.Cnf.Dimacs
import TaasFudge.Program.Loop

/-! # The IPASIR bridge

A solver object is a value that the program passes along: its clauses, the clause
still being added, the assumptions for the next search, the state of ipasir.h and
the last model. Values read outside the state SAT are those of the last model; the
world records whether any call was made in a state that ipasir.h does not allow.
-/

namespace TaasFudge

open Dimacs

inductive IpasirState where
  | input
  | sat
  | unsat
  deriving DecidableEq

structure IpasirSolver where
  clauses : List Clause
  openClause : Clause
  assumptions : List ℤ
  state : IpasirState
  model : PartialModel

/-- What a run shares: the number of searches so far, the text printed, and whether every
call so far respected the protocol. -/
structure World where
  calls : ℕ
  stdout : String
  protocolOk : Bool

/-- Record whether a call was allowed. -/
def World.expect (w : World) (allowed : Bool) : World :=
  { w with protocolOk := w.protocolOk && allowed }

@[simp] theorem World.expect_true (w : World) : w.expect true = w := by
  simp [World.expect]

@[simp] theorem World.expect_stdout (w : World) (b : Bool) : (w.expect b).stdout = w.stdout :=
  rfl

def printf (s : String) : Prog World Unit :=
  Prog.atomic fun w => ((), { w with stdout := w.stdout ++ s })

def satInit : IpasirSolver where
  clauses := []
  openClause := []
  assumptions := []
  state := .input
  model _ := none

/-- `ipasir_add`: a literal continues the open clause, zero closes it. -/
def satAdd (solver : IpasirSolver) (lit : ℤ) : IpasirSolver :=
  if lit = 0 then
    { solver with
      clauses := solver.clauses ++ [solver.openClause], openClause := [], state := .input }
  else { solver with openClause := solver.openClause ++ [lit], state := .input }

def satAssume (solver : IpasirSolver) (lit : ℤ) : Prog World IpasirSolver :=
  Prog.atomic fun w =>
    ({ solver with assumptions := solver.assumptions ++ [lit], state := .input },
      w.expect solver.openClause.isEmpty)

def satAddClause1 (solver : IpasirSolver) (var : ℤ) : IpasirSolver :=
  satAdd (satAdd solver var) 0

def satAddClause2 (solver : IpasirSolver) (var1 var2 : ℤ) : IpasirSolver :=
  satAdd (satAdd (satAdd solver var1) var2) 0

def satAddClause3 (solver : IpasirSolver) (var1 var2 var3 : ℤ) : IpasirSolver :=
  satAdd (satAdd (satAdd (satAdd solver var1) var2) var3) 0

def satAddClause (solver : IpasirSolver) (clause : List ℤ) (num : ℕ) : IpasirSolver :=
  satAdd ((clause.take num).foldl satAdd solver) 0

def satAddClauseZT (solver : IpasirSolver) : List ℤ → IpasirSolver
  | [] => solver
  | lit :: clause => if lit = 0 then satAdd solver lit else satAddClauseZT (satAdd solver lit) clause

def IpasirSolver.query (solver : IpasirSolver) : Query := ⟨solver.clauses, solver.assumptions⟩

/-- `ipasir_solve`: the result code, and the object afterwards. Assumptions are cleared. -/
def satSolve (ω : Oracle) (solver : IpasirSolver) : Prog World (ℤ × IpasirSolver) :=
  Prog.atomic fun w =>
    let w' := { w.expect solver.openClause.isEmpty with calls := w.calls + 1 }
    match ω w.calls solver.query with
    | .sat m => ((10, { solver with assumptions := [], state := .sat, model := m }), w')
    | .unsat => ((20, { solver with assumptions := [], state := .unsat }), w')

/-- `ipasir_val`. Outside the state SAT, where ipasir.h allows no call, the value is taken to stay
that of the last model; the call is recorded. -/
def satGet (solver : IpasirSolver) (var : ℤ) : Prog World ℤ :=
  Prog.atomic fun w => (solver.model.value var, w.expect (solver.state == .sat))

def satPos (solver : IpasirSolver) (var : ℤ) : Prog World Bool := do
  let v ← satGet solver var
  pure (decide (0 < v))

def satNeg (solver : IpasirSolver) (var : ℤ) : Prog World Bool := do
  let v ← satGet solver var
  pure (decide (v < 0))

variable {solver : IpasirSolver} {τ : Assignment} {l : ℤ}

theorem satGet_of_sat (h : solver.state = .sat) (l : ℤ) :
    satGet solver l = pure (solver.model.value l) := by
  funext k w
  simp [satGet, Prog.atomic, Prog.pure_run, h]

theorem satPos_of_sat (h : solver.state = .sat) (l : ℤ) :
    satPos solver l = pure (decide (0 < solver.model.value l)) := by
  rw [satPos, satGet_of_sat h, pure_bind]

theorem satNeg_of_sat (h : solver.state = .sat) (l : ℤ) :
    satNeg solver l = pure (decide (solver.model.value l < 0)) := by
  rw [satNeg, satGet_of_sat h, pure_bind]

namespace IpasirSolver

def assume (solver : IpasirSolver) (l : ℤ) : IpasirSolver :=
  { solver with assumptions := solver.assumptions ++ [l], state := .input }

def assumeAll (solver : IpasirSolver) (ls : List ℤ) : IpasirSolver := ls.foldl assume solver

def Holds (solver : IpasirSolver) (τ : Assignment) : Prop := ∀ c ∈ solver.clauses, τ.Satisfies c

def push (solver : IpasirSolver) (c : Clause) : IpasirSolver :=
  { solver with
    clauses := solver.clauses ++ [solver.openClause ++ c], openClause := [], state := .input }

def pushAll (solver : IpasirSolver) (cs : List Clause) : IpasirSolver := cs.foldl push solver

@[simp] theorem push_openClause (c : Clause) : (solver.push c).openClause = [] := rfl
@[simp] theorem push_assumptions (c : Clause) :
    (solver.push c).assumptions = solver.assumptions := rfl

theorem holds_push (h : solver.openClause = []) (c : Clause) :
    (solver.push c).Holds τ ↔ solver.Holds τ ∧ τ.Satisfies c := by
  simp [Holds, push, h, or_imp, forall_and]

@[simp] theorem pushAll_nil : solver.pushAll [] = solver := rfl

@[simp] theorem pushAll_cons (c : Clause) (cs : List Clause) :
    solver.pushAll (c :: cs) = (solver.push c).pushAll cs := rfl

theorem pushAll_append (cs ds : List Clause) :
    solver.pushAll (cs ++ ds) = (solver.pushAll cs).pushAll ds := List.foldl_append

theorem pushAll_openClause (h : solver.openClause = []) (cs : List Clause) :
    (solver.pushAll cs).openClause = [] := by
  induction cs generalizing solver with
  | nil => exact h
  | cons c cs ih => exact ih (push_openClause c)

@[simp] theorem pushAll_assumptions (cs : List Clause) :
    (solver.pushAll cs).assumptions = solver.assumptions := by
  induction cs generalizing solver with
  | nil => rfl
  | cons c cs ih => exact ih

theorem holds_pushAll (h : solver.openClause = []) (cs : List Clause) :
    (solver.pushAll cs).Holds τ ↔ solver.Holds τ ∧ ∀ c ∈ cs, τ.Satisfies c := by
  induction cs generalizing solver with
  | nil => simp
  | cons c cs ih =>
    rw [pushAll_cons, ih (push_openClause c), holds_push h, and_assoc, List.forall_mem_cons]

end IpasirSolver

theorem satAssume_of_closed (h : solver.openClause = []) (l : ℤ) :
    satAssume solver l = pure (solver.assume l) := by
  funext k w
  simp [satAssume, Prog.atomic, Prog.pure_run, IpasirSolver.assume, h]

theorem satAdd_ne_zero (hl : l ≠ 0) : satAdd solver l =
    { solver with openClause := solver.openClause ++ [l], state := .input } := if_neg hl

theorem satAdd_zero_foldl {c : Clause} (hc : ∀ l ∈ c, l ≠ 0) :
    satAdd (c.foldl satAdd solver) 0 = solver.push c := by
  induction c generalizing solver with
  | nil => simp [satAdd, IpasirSolver.push]
  | cons l c ih =>
    rw [List.foldl_cons, ih fun l' hl' => hc l' (by simp [hl']), satAdd_ne_zero (hc l (by simp))]
    simp [IpasirSolver.push]

theorem satAddClause1_eq (h : l ≠ 0) : satAddClause1 solver l = solver.push [l] :=
  satAdd_zero_foldl (c := [l]) (by simpa using h)

theorem satAddClause2_eq {l₁ l₂ : ℤ} (h₁ : l₁ ≠ 0) (h₂ : l₂ ≠ 0) :
    satAddClause2 solver l₁ l₂ = solver.push [l₁, l₂] :=
  satAdd_zero_foldl (c := [l₁, l₂]) (by simp [h₁, h₂])

theorem satAddClause3_eq {l₁ l₂ l₃ : ℤ} (h₁ : l₁ ≠ 0) (h₂ : l₂ ≠ 0) (h₃ : l₃ ≠ 0) :
    satAddClause3 solver l₁ l₂ l₃ = solver.push [l₁, l₂, l₃] :=
  satAdd_zero_foldl (c := [l₁, l₂, l₃]) (by simp [h₁, h₂, h₃])

theorem satAddClause_eq {c : Clause} (hc : ∀ l ∈ c, l ≠ 0) (num : ℕ) :
    satAddClause solver c num = solver.push (c.take num) :=
  satAdd_zero_foldl fun l hl => hc l (List.mem_of_mem_take hl)

theorem satAddClauseZT_eq {c : Clause} (hc : ∀ l ∈ c, l ≠ 0) :
    satAddClauseZT solver (c ++ [0]) = solver.push c := by
  rw [← satAdd_zero_foldl hc]
  induction c generalizing solver with
  | nil => rfl
  | cons l c ih =>
    rw [List.cons_append, satAddClauseZT, if_neg (hc l (by simp)), List.foldl_cons]
    exact ih fun l' hl' => hc l' (by simp [hl'])

theorem ne_zero_of_mem_map {ι : Type} {v : ι → ℤ} (hv : ∀ i, v i ≠ 0) {xs : List ι} {l : ℤ}
    (hl : l ∈ xs.map v) : l ≠ 0 := by
  obtain ⟨i, -, rfl⟩ := List.mem_map.1 hl
  exact hv i

/-- A loop that adds the literals of the selected entries, then the terminating zero. -/
theorem satAdd_zero_foldl_filter {ι : Type} (xs : List ι) (p : ι → Bool) {v : ι → ℤ}
    (hv : ∀ i, v i ≠ 0) :
    satAdd (xs.foldl (fun s i => if p i then satAdd s (v i) else s) solver) 0 =
      solver.push ((xs.filter p).map v) := by
  rw [← satAdd_zero_foldl fun l => ne_zero_of_mem_map hv, List.foldl_map, List.foldl_filter]

def IpasirSolver.satisfied (solver : IpasirSolver) (m : PartialModel) : IpasirSolver :=
  { solver with assumptions := [], state := .sat, model := m }

def IpasirSolver.refuted (solver : IpasirSolver) : IpasirSolver :=
  { solver with assumptions := [], state := .unsat }

namespace IpasirSolver
variable {β : Type} {π : Assignment → β} {R P A : β → Prop}

/-- No clause is open, nothing is assumed, and the models seen through `π` are the elements
satisfying `R`. -/
structure Describes (solver : IpasirSolver) (π : Assignment → β) (R : β → Prop) : Prop where
  closed : solver.openClause = []
  unassumed : solver.assumptions = []
  sound : ∀ τ, solver.Holds τ → R (π τ)
  complete : ∀ b, R b → ∃ τ, solver.Holds τ ∧ π τ = b

theorem describes_satInit (hπ : Function.Surjective π) : satInit.Describes π fun _ => True :=
  ⟨rfl, rfl, fun _ _ => trivial, fun b _ => (hπ b).imp fun _ hτ => ⟨nofun, hτ⟩⟩

theorem assumeAll_eq (ls : List ℤ) : solver.assumeAll ls =
    { solver with
      assumptions := solver.assumptions ++ ls
      state := if ls = [] then solver.state else .input } := by
  induction ls generalizing solver with
  | nil => simp [assumeAll]
  | cons l ls ih =>
    rw [assumeAll, List.foldl_cons, ← assumeAll, ih]
    simp [assume]

namespace Describes

theorem congr (h : solver.Describes π R) (hP : ∀ b, R b ↔ P b) : solver.Describes π P := by
  have : R = P := funext fun b => propext (hP b)
  exact this ▸ h

theorem pushAll (h : solver.Describes π R) {cs : List Clause}
    (hcs : ∀ τ : Assignment, (∀ c ∈ cs, τ.Satisfies c) ↔ P (π τ)) :
    (solver.pushAll cs).Describes π fun b => R b ∧ P b where
  closed := pushAll_openClause h.closed cs
  unassumed := (pushAll_assumptions cs).trans h.unassumed
  sound τ hτ := by
    rw [holds_pushAll h.closed] at hτ
    exact ⟨h.sound τ hτ.1, (hcs τ).1 hτ.2⟩
  complete b hb := by
    obtain ⟨τ, hτ, rfl⟩ := h.complete b hb.1
    exact ⟨τ, (holds_pushAll h.closed cs).2 ⟨hτ, (hcs τ).2 hb.2⟩, rfl⟩

theorem push (h : solver.Describes π R) {c : Clause}
    (hc : ∀ τ : Assignment, τ.Satisfies c ↔ P (π τ)) :
    (solver.push c).Describes π fun b => R b ∧ P b :=
  by
  have hcs : ∀ τ : Assignment, (∀ d ∈ [c], τ.Satisfies d) ↔ P (π τ) := fun τ => by
    rw [List.forall_mem_singleton, hc]
  exact h.pushAll hcs

theorem satisfied (h : solver.Describes π R) (m : PartialModel) :
    (solver.satisfied m).Describes π R := ⟨h.closed, rfl, h.sound, h.complete⟩

theorem refuted (h : solver.Describes π R) : solver.refuted.Describes π R :=
  ⟨h.closed, rfl, h.sound, h.complete⟩

/-- A search finds an element satisfying `R` and the assumptions, or there is none. -/
theorem total_search (h : solver.Describes π R) (ω : TotalOracle) (ls : List ℤ)
    (hA : ∀ τ : Assignment, (∀ l ∈ ls, τ.lit l = true) ↔ A (π τ))
    {Q : ℤ × IpasirSolver → World → Prop} {w : World}
    (hsat : ∀ τ w', R (π τ) → A (π τ) → w'.stdout = w.stdout ∧ w'.calls = w.calls + 1 →
      Q (10, solver.satisfied τ.model) w')
    (hunsat : ∀ w', (∀ b, R b → ¬ A b) → w'.stdout = w.stdout ∧ w'.calls = w.calls + 1 →
      Q (20, solver.refuted) w') :
    Prog.Total (satSolve ω.answer (solver.assumeAll ls)) Q w := by
  rw [satSolve, Prog.total_atomic, assumeAll_eq]
  rcases ω.cases w.calls ⟨solver.clauses, solver.assumptions ++ ls⟩ with ⟨τ, ha, hq⟩ | ⟨ha, hq⟩
  · simp only [query, ha]
    refine hsat τ _ (h.sound τ hq.1) ((hA τ).1 fun l hl => hq.2 l ?_) ⟨rfl, rfl⟩
    exact List.mem_append_right _ hl
  · simp only [query, ha]
    refine hunsat _ (fun b hb hAb => ?_) ⟨rfl, rfl⟩
    obtain ⟨τ, hτ, rfl⟩ := h.complete b hb
    refine hq τ ⟨hτ, fun l hl => (hA τ).2 hAb l ?_⟩
    simpa [h.unassumed] using hl

theorem total_satSolve (h : solver.Describes π R) (ω : TotalOracle) (ls : List ℤ)
    (hA : ∀ τ : Assignment, (∀ l ∈ ls, τ.lit l = true) ↔ A (π τ))
    {Q : ℤ × IpasirSolver → World → Prop} {w : World}
    (hsat : ∀ τ w', R (π τ) → A (π τ) → w'.stdout = w.stdout →
      Q (10, solver.satisfied τ.model) w')
    (hunsat : ∀ w', (∀ b, R b → ¬ A b) → w'.stdout = w.stdout → Q (20, solver.refuted) w') :
    Prog.Total (satSolve ω.answer (solver.assumeAll ls)) Q w :=
  h.total_search ω ls hA (fun τ w' hτ hmeets hw' => hsat τ w' hτ hmeets hw'.1)
    fun w' hno hw' => hunsat w' hno hw'.1

/-- A search without assumptions finds a model of which all completions satisfy `R`, or no
element does. -/
theorem total_satSolve_open (h : solver.Describes π R) (ω : SatOracle)
    {Q : ℤ × IpasirSolver → World → Prop} {w : World}
    (hsat : ∀ m w', ω.answer w.calls solver.query = .sat m → (∀ τ, m.Completion τ → R (π τ)) →
      w'.stdout = w.stdout → Q (10, solver.satisfied m) w')
    (hunsat : ∀ w', (∀ b, ¬ R b) → w'.stdout = w.stdout → Q (20, solver.refuted) w') :
    Prog.Total (satSolve ω.answer solver) Q w := by
  have hsound := ω.sound w.calls solver.query
  rw [satSolve, Prog.total_atomic]
  cases ha : ω.answer w.calls solver.query with
  | sat m =>
    rw [ha] at hsound
    exact hsat m _ ha (fun τ hτ => h.sound τ (hsound τ hτ).1) rfl
  | unsat =>
    rw [ha] at hsound
    refine hunsat _ (fun b hb => ?_) rfl
    obtain ⟨τ, hτ, -⟩ := h.complete b hb
    apply hsound τ
    exact ⟨hτ, by simp [query, h.unassumed]⟩

end Describes

variable {γ : Type} {g : β → γ} {solver' : IpasirSolver}

noncomputable def remaining (solver : IpasirSolver) (f : Assignment → γ) : ℕ :=
  (f '' {τ | solver.Holds τ}).ncard

theorem Describes.remaining_eq (h : solver.Describes π R) (g : β → γ) :
    solver.remaining (g ∘ π) = (g '' {b | R b}).ncard := by
  have himage : π '' {τ | solver.Holds τ} = {b | R b} := by
    ext b
    constructor
    · rintro ⟨τ, hτ, rfl⟩
      exact h.sound τ hτ
    · exact fun hb => h.complete b hb
  rw [remaining, Set.image_comp, himage]

theorem Describes.remaining_lt [Finite γ] {R' : β → Prop} (h : solver.Describes π R)
    (h' : solver'.Describes π R') {b₀ : β} (hsub : ∀ b, R' b → R b) (h₀ : R b₀)
    (hne : ∀ b, R' b → g b ≠ g b₀) : solver'.remaining (g ∘ π) < solver.remaining (g ∘ π) := by
  rw [h.remaining_eq, h'.remaining_eq]
  refine Set.ncard_lt_ncard ((Set.ssubset_iff_of_subset (Set.image_mono hsub)).2 ?_)
  refine ⟨g b₀, Set.mem_image_of_mem g h₀, ?_⟩
  rintro ⟨b, hb, heq⟩
  exact hne b hb heq

end IpasirSolver

end TaasFudge
