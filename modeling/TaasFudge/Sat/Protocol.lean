import TaasFudge.Sat.IpasirSolver

/-! # The call protocol of ipasir.h

Values are read in the state SAT, and nothing is assumed or searched while a clause
is open. A program respects the protocol when no run of it, finished or not, breaks
these rules.
-/

namespace TaasFudge

open Dimacs

/-- No run of `p` makes a call that is not allowed, and all results satisfy `Q`. -/
abbrev Respects {α : Type} (p : Prog World α) (Q : α → Prop) : Prop :=
  p.Keeps (fun w => w.protocolOk = true) Q

variable {solver : IpasirSolver} {τ : Assignment}

@[simp] theorem satAdd_zero_openClause (solver : IpasirSolver) :
    (satAdd solver 0).openClause = [] := rfl

@[simp] theorem satAddClause1_openClause (v : ℤ) : (satAddClause1 solver v).openClause = [] := rfl

@[simp] theorem satAddClause_openClause (c : List ℤ) (num : ℕ) :
    (satAddClause solver c num).openClause = [] := rfl

theorem respects_printf (s : String) : Respects (printf s) fun _ => True :=
  Prog.Keeps.atomic fun _ hw => ⟨hw, trivial⟩

theorem respects_satAssume (h : solver.openClause = []) (l : ℤ) :
    Respects (satAssume solver l) fun s => s.openClause = [] := by
  rw [satAssume_of_closed h]
  exact Prog.Keeps.pure h

/-- The model `m` answers the search of the object under the assumptions `ls`. -/
def IpasirSolver.Finds (solver : IpasirSolver) (ls : List ℤ) (m : PartialModel) : Prop :=
  ∀ τ, m.Completion τ → solver.Holds τ ∧ ∀ l ∈ ls, τ.lit l = true

/-- A search of a closed object finds a model or refutes it. -/
theorem respects_search (ω : SatOracle) (h : solver.openClause = []) (ls : List ℤ) :
    Respects (satSolve ω.answer (solver.assumeAll ls)) fun r =>
      (∃ m, solver.Finds ls m ∧ r = (10, solver.satisfied m)) ∨ r = (20, solver.refuted) := by
  refine Prog.Keeps.atomic fun w hw => ?_
  rw [IpasirSolver.assumeAll_eq]
  have hs := ω.sound w.calls ⟨solver.clauses, solver.assumptions ++ ls⟩
  rcases ha : ω.answer w.calls ⟨solver.clauses, solver.assumptions ++ ls⟩ with m | _
  · rw [ha] at hs
    simp only [IpasirSolver.query, ha]
    refine ⟨by simp [World.expect, hw, h], .inl ⟨m, fun τ hτ => ?_, rfl⟩⟩
    exact ⟨(hs τ hτ).1, fun l hl => (hs τ hτ).2 l (List.mem_append_right _ hl)⟩
  · simp only [IpasirSolver.query, ha]
    exact ⟨by simp [World.expect, hw, h], .inr rfl⟩

/-- After a search the object is closed, and its values may be read unless the result is 20. -/
def Searched (r : ℤ × IpasirSolver) : Prop :=
  r.2.openClause = [] ∧ (r.1 ≠ 20 → r.2.state = .sat)

theorem respects_satSolve (ω : SatOracle) (h : solver.openClause = []) :
    Respects (satSolve ω.answer solver) Searched := by
  refine (respects_search ω h []).mono ?_
  rintro _ (⟨m, -, rfl⟩ | rfl)
  · exact ⟨h, fun _ => rfl⟩
  · exact ⟨h, fun h => absurd rfl h⟩

def Broken (w : World) : Prop := w.protocolOk = false

section Broken
variable {k : ℕ} {J : World → Prop} {w : World}

theorem broken_expect (b : Bool) (h : Broken w ∨ b = false) : Broken (w.expect b) := by
  rcases h with h | rfl
  · simp [Broken, World.expect, show w.protocolOk = false from h]
  · simp [Broken, World.expect]

theorem keeps_broken_satPos (solver : IpasirSolver) (v : ℤ) :
    (satPos solver v).Keeps Broken fun _ => True :=
  (Prog.Keeps.atomic (Q := fun _ => True) fun _ h => ⟨broken_expect _ (.inl h), trivial⟩).bind
    fun _ _ => Prog.Keeps.pure trivial

theorem within_satPos {Q : Bool → World → Prop} (solver : IpasirSolver) (v : ℤ) :
    Prog.Within k J (satPos solver v) Q w ↔
      Q (decide (0 < solver.model.value v)) (w.expect (solver.state == .sat)) := Iff.rfl

theorem within_satSolve {Q : ℤ × IpasirSolver → World → Prop} {ω : Oracle} (ls : List ℤ)
    {m : PartialModel}
    (h : ω w.calls ⟨solver.clauses, solver.assumptions ++ ls⟩ = .sat m) :
    Prog.Within k J (satSolve ω (solver.assumeAll ls)) Q w ↔
      Q (10, solver.satisfied m)
        { w.expect solver.openClause.isEmpty with calls := w.calls + 1 } := by
  rw [satSolve, Prog.within_atomic, IpasirSolver.assumeAll_eq]
  simp only [IpasirSolver.query, h]
  rfl

end Broken

namespace IpasirSolver
variable {β : Type} {π : Assignment → β} {R : β → Prop} {ls : List ℤ} {m : PartialModel}

/-- No clause is open, and what `π` sees of a model satisfies `R`. -/
structure Entails (solver : IpasirSolver) (π : Assignment → β) (R : β → Prop) : Prop where
  closed : solver.openClause = []
  sound : ∀ τ, solver.Holds τ → R (π τ)

/-- A model of an object answers its next search if the assumptions are true. -/
theorem Describes.satisfiedBy (h : solver.Describes π R) {τ : Assignment} (hτ : solver.Holds τ)
    (hls : ∀ l ∈ ls, τ.lit l = true) :
    Query.SatisfiedBy ⟨solver.clauses, solver.assumptions ++ ls⟩ τ :=
  ⟨hτ, by rwa [h.unassumed, List.nil_append]⟩

theorem Describes.entails (h : solver.Describes π R) : solver.Entails π R := ⟨h.closed, h.sound⟩

theorem Entails.satisfied (h : solver.Entails π R) (m : PartialModel) :
    (solver.satisfied m).Entails π R := ⟨h.closed, h.sound⟩

theorem Entails.push (h : solver.Entails π R) (c : Clause) : (solver.push c).Entails π R :=
  ⟨push_openClause c, fun τ hτ => h.sound τ ((holds_push h.closed c).1 hτ).1⟩

end IpasirSolver

end TaasFudge
