import TaasFudge.Cnf.Completion
import TaasFudge.Program.Lockstep
import TaasFudge.Sat.IpasirSolver

/-! # Objects that look alike

A program that only ever asks for one sign of the values it reads cannot tell a model with open
variables from its completion. Objects that differ in their models only, which agree in that sign,
stay so under the same calls, and the calls run in lockstep.
-/

namespace TaasFudge

open Dimacs

/-- The objects differ in their models only, and these have the same values of one sign. -/
inductive Alike (b : Bool) (solver : IpasirSolver) : IpasirSolver → Prop
  | model {m : PartialModel} (h : ∀ l, 0 < l → sign b (solver.model.value l) = sign b (m.value l)) :
      Alike b solver { solver with model := m }

namespace Alike
variable {b : Bool} {solver solver' : IpasirSolver}

protected theorem refl (b : Bool) (solver : IpasirSolver) : Alike b solver solver :=
  .model (m := solver.model) fun _ _ => rfl

theorem query_eq (h : Alike b solver solver') : solver'.query = solver.query := by
  cases h
  rfl

/-- An update that leaves the model as it is and does not depend on it. -/
theorem update (h : Alike b solver solver') {f : IpasirSolver → IpasirSolver}
    (hf : ∀ s m, f { s with model := m } = { f s with model := m })
    (hmodel : ∀ s, (f s).model = s.model) : Alike b (f solver) (f solver') := by
  cases h with
  | @model m h =>
    rw [hf solver m]
    apply Alike.model
    rwa [hmodel]

theorem satAdd (h : Alike b solver solver') (l : ℤ) :
    Alike b (satAdd solver l) (satAdd solver' l) := by
  apply h.update (f := fun s => TaasFudge.satAdd s l)
  · intro s m
    simp only [TaasFudge.satAdd]
    split_ifs <;> rfl
  · intro s
    simp only [TaasFudge.satAdd]
    split_ifs <;> rfl

theorem foldl {ι : Type} {f : IpasirSolver → ι → IpasirSolver}
    (hf : ∀ s s' x, Alike b s s' → Alike b (f s x) (f s' x)) (l : List ι)
    (h : Alike b solver solver') : Alike b (l.foldl f solver) (l.foldl f solver') := by
  induction l generalizing solver solver' with
  | nil => exact h
  | cons x l ih => exact ih (hf _ _ x h)

theorem satAddClause2 (h : Alike b solver solver') (l₁ l₂ : ℤ) :
    Alike b (satAddClause2 solver l₁ l₂) (satAddClause2 solver' l₁ l₂) :=
  ((h.satAdd l₁).satAdd l₂).satAdd 0

theorem satAddClause (h : Alike b solver solver') (c : List ℤ) (num : ℕ) :
    Alike b (satAddClause solver c num) (satAddClause solver' c num) :=
  (foldl (fun _ _ l h => h.satAdd l) _ h).satAdd 0

end Alike

section Calls
variable {b : Bool} {solver solver' : IpasirSolver}

theorem lockstep_satAssume (h : Alike b solver solver') (l : ℤ) :
    Prog.Lockstep (Alike b) (satAssume solver l) (satAssume solver' l) := by
  cases h with
  | model h => exact Prog.lockstep_atomic fun _ => ⟨rfl, .model h⟩

/-- What the same search gives with an oracle and with its completion. -/
inductive Found (b : Bool) (solver solver' : IpasirSolver) :
    ℤ × IpasirSolver → ℤ × IpasirSolver → Prop
  | sat {m : PartialModel} (hm : ∀ τ, m.Completion τ → solver.Holds τ) :
      Found b solver solver' (10, solver.satisfied m) (10, solver'.satisfied (m.fill b).model)
  | unsat : Found b solver solver' (20, solver.refuted) (20, solver'.refuted)

/-- The completion is by the value that keeps the sign that is read. -/
theorem lockstep_satSolve_found (ω : SatOracle) {v : Query → Bool} (h : Alike b solver solver')
    (hv : v solver.query = b) :
    Prog.Lockstep (Found b solver solver') (satSolve ω.answer solver)
      (satSolve (ω.fillBy v).answer solver') := by
  apply Prog.lockstep_atomic
  intro w
  have hfill : (ω.fillBy v).answer w.calls solver'.query =
      (ω.answer w.calls solver.query).fill b := by
    rw [h.query_eq, ← hv]
    rfl
  have hsound := ω.sound w.calls solver.query
  rw [hfill]
  cases h with
  | model h =>
    cases ha : ω.answer w.calls solver.query with
    | sat m =>
      rw [ha] at hsound
      exact ⟨rfl, .sat fun τ hτ => (hsound τ hτ).1⟩
    | unsat => exact ⟨rfl, .unsat⟩

structure AlikeFound (b : Bool) (r r' : ℤ × IpasirSolver) : Prop where
  result : r.1 = r'.1
  alike : Alike b r.2 r'.2
  unassumed : r.2.assumptions = []

theorem Found.alike {r r' : ℤ × IpasirSolver} (hr : Found b solver solver' r r')
    (h : Alike b solver solver') : AlikeFound b r r' := by
  cases h with
  | model h =>
    cases hr with
    | @sat m hm => exact ⟨rfl, .model fun l hl => (m.sign_fill b hl).symm, rfl⟩
    | unsat => exact ⟨rfl, .model h, rfl⟩

theorem lockstep_satSolve (ω : SatOracle) {v : Query → Bool} (h : Alike b solver solver')
    (hv : v solver.query = b) :
    Prog.Lockstep (AlikeFound b) (satSolve ω.answer solver)
      (satSolve (ω.fillBy v).answer solver') :=
  (lockstep_satSolve_found ω h hv).mono fun _ _ hr => hr.alike h

theorem satGet_sign_congr (h : Alike b solver solver') {l : ℤ} (hl : 0 < l) :
    (do
      let v ← satGet solver' l
      pure (sign b v)) = (do
      let v ← satGet solver l
      pure (sign b v) : Prog World Bool) := by
  cases h with
  | @model m h =>
    funext k w
    change (some (sign b (m.value l)), w.expect (solver.state == .sat)) =
      (some (sign b (solver.model.value l)), w.expect (solver.state == .sat))
    rw [h l hl]

theorem satPos_congr (h : Alike false solver solver') {l : ℤ} (hl : 0 < l) :
    satPos solver' l = satPos solver l := satGet_sign_congr h hl

theorem satNeg_congr (h : Alike true solver solver') {l : ℤ} (hl : 0 < l) :
    satNeg solver' l = satNeg solver l := satGet_sign_congr h hl

end Calls

end TaasFudge
