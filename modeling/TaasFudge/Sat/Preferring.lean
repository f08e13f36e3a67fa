import TaasFudge.Sat.IpasirSolver

/-! # Solvers with a preference

Which model a search finds is up to the solver. Every property of models is preferred by some
right solver, which finds a model with the property wherever there is one.
-/

namespace TaasFudge

open Dimacs

/-- Where some model of a query has the property, the answer is a model that has it. -/
def Dimacs.TotalOracle.Prefers (ω : TotalOracle) (G : Assignment → Prop) : Prop :=
  ∀ k (q : Query) τ, q.SatisfiedBy τ → G τ → ∃ υ : Assignment, ω.answer k q = .sat υ.model ∧ G υ

theorem Dimacs.TotalOracle.exists_prefers (G : Assignment → Prop) :
    ∃ ω : TotalOracle, ω.Prefers G := by
  classical
  let answer : Oracle := fun k q =>
    if h : ∃ τ, q.SatisfiedBy τ ∧ G τ then .sat h.choose.model else exhaustive.answer k q
  have hpos : ∀ k q, (∃ τ, q.SatisfiedBy τ ∧ G τ) →
      ∃ υ : Assignment, answer k q = .sat υ.model ∧ q.SatisfiedBy υ ∧ G υ :=
    fun k q h => ⟨h.choose, dif_pos h, h.choose_spec⟩
  have hneg : ∀ k q, ¬ (∃ τ, q.SatisfiedBy τ ∧ G τ) → answer k q = exhaustive.answer k q :=
    fun k q h => dif_neg h
  refine ⟨⟨⟨answer, fun k q => ?_⟩, fun k q m hm => ?_⟩, fun k q τ hτ hG => ?_⟩
  · by_cases h : ∃ τ, q.SatisfiedBy τ ∧ G τ
    · obtain ⟨υ, hυ, hq, -⟩ := hpos k q h
      rw [hυ]
      intro τ hτ
      rwa [Assignment.model_completion_iff.1 hτ]
    · rw [hneg k q h]
      exact exhaustive.sound k q
  · by_cases h : ∃ τ, q.SatisfiedBy τ ∧ G τ
    · obtain ⟨υ, hυ, -⟩ := hpos k q h
      exact ⟨υ, Answer.sat.inj (hm.symm.trans hυ)⟩
    · exact exhaustive.total k q m ((hneg k q h).symm.trans hm)
  · obtain ⟨υ, hυ, -, hGυ⟩ := hpos k q ⟨τ, hτ, hG⟩
    exact ⟨υ, hυ, hGυ⟩

namespace IpasirSolver.Describes
variable {β : Type} {π : Assignment → β} {R A : β → Prop} {solver : IpasirSolver}
  {Q : ℤ × IpasirSolver → World → Prop} {w : World}

theorem expect_closed (h : solver.Describes π R) : w.expect solver.openClause.isEmpty = w := by
  rw [h.closed]
  exact w.expect_true

/-- A search finds an element satisfying `R` and the assumptions, a preferred one if there is one,
and finds nothing if there is nothing to find. -/
theorem total_picked (h : solver.Describes π R) (ω : TotalOracle) (ls : List ℤ)
    (hA : ∀ τ : Assignment, (∀ l ∈ ls, τ.lit l = true) ↔ A (π τ))
    (hsat : ∀ τ, R (π τ) → A (π τ) →
      (∀ G b, ω.Prefers G → R b → A b → (∀ υ, π υ = b → G υ) → G τ) →
      Q (10, solver.satisfied τ.model) { w with calls := w.calls + 1 })
    (hunsat : (∀ b, R b → ¬ A b) → Q (20, solver.refuted) { w with calls := w.calls + 1 }) :
    Prog.Total (satSolve ω.answer (solver.assumeAll ls)) Q w := by
  -- the query has an element for a model iff it satisfies `R` and the assumptions
  have hquery : ∀ b, R b → A b → ∃ τ, π τ = b ∧
      (⟨solver.clauses, solver.assumptions ++ ls⟩ : Query).SatisfiedBy τ := by
    intro b hb hAb
    obtain ⟨τ, hτ, rfl⟩ := h.complete b hb
    refine ⟨τ, rfl, hτ, fun l hl => (hA τ).2 hAb l ?_⟩
    simpa [h.unassumed] using hl
  rw [satSolve, Prog.total_atomic, assumeAll_eq]
  rcases ω.cases w.calls ⟨solver.clauses, solver.assumptions ++ ls⟩ with ⟨τ, ha, hq⟩ | ⟨ha, hq⟩
  · simp only [query, ha, h.expect_closed]
    apply hsat τ (h.sound τ hq.1)
    · exact (hA τ).1 fun l hl => hq.2 l (List.mem_append_right _ hl)
    · intro G b hω hb hAb hG
      obtain ⟨υ, hυ, hsatisfied⟩ := hquery b hb hAb
      obtain ⟨τ', hτ', hGτ'⟩ := hω w.calls _ υ hsatisfied (hG υ hυ)
      have hmodel := Answer.sat.inj (ha.symm.trans hτ')
      have hcompletion : τ'.model.Completion τ := hmodel ▸ Assignment.model_completion_iff.2 rfl
      rwa [Assignment.model_completion_iff.1 hcompletion]
  · simp only [query, ha, h.expect_closed]
    apply hunsat
    intro b hb hAb
    obtain ⟨τ, -, hτ⟩ := hquery b hb hAb
    exact hq τ hτ

/-- The answer to a query without assumptions that a preference leads to. -/
theorem exists_preferred_answer {ω : TotalOracle} {G : Assignment → Prop}
    (h : solver.Describes π R) (hω : ω.Prefers G) {b : β} (hb : R b) (hG : ∀ τ, π τ = b → G τ)
    (k : ℕ) : ∃ τ : Assignment, ω.answer k solver.query = .sat τ.model ∧ G τ := by
  obtain ⟨τ, hτ, hπ⟩ := h.complete b hb
  have hquery : solver.query.SatisfiedBy τ := ⟨hτ, by simp [query, h.unassumed]⟩
  exact hω k _ τ hquery (hG τ hπ)

/-- A search finds a preferred element if there is one. -/
theorem total_preferred {ω : TotalOracle} {G : Assignment → Prop} (h : solver.Describes π R)
    (hω : ω.Prefers G) (ls : List ℤ)
    (hA : ∀ τ : Assignment, (∀ l ∈ ls, τ.lit l = true) ↔ A (π τ)) {b : β}
    (hb : R b) (hAb : A b) (hG : ∀ τ, π τ = b → G τ)
    (hsat : ∀ τ, G τ → Q (10, solver.satisfied τ.model) { w with calls := w.calls + 1 }) :
    Prog.Total (satSolve ω.answer (solver.assumeAll ls)) Q w := by
  apply h.total_picked ω ls hA
  · exact fun τ _ _ hpick => hsat τ (hpick G b hω hb hAb hG)
  · exact fun hno => absurd hAb (hno b hb)

/-- A search finds nothing if there is nothing to find. -/
theorem total_refuted {ω : TotalOracle} (h : solver.Describes π R) (ls : List ℤ)
    (hA : ∀ τ : Assignment, (∀ l ∈ ls, τ.lit l = true) ↔ A (π τ)) (hno : ∀ b, R b → ¬ A b)
    (hunsat : Q (20, solver.refuted) { w with calls := w.calls + 1 }) :
    Prog.Total (satSolve ω.answer (solver.assumeAll ls)) Q w := by
  apply h.total_picked ω ls hA
  · exact fun τ hτ hAτ _ => absurd hAτ (hno _ hτ)
  · exact fun _ => hunsat

end IpasirSolver.Describes

end TaasFudge
