import TaasFudge.Program.Loop

/-! # The cost of a run

A cost is a number that is read off the state, such as how often an operation was
performed so far. What a program costs in every run, finished or not, adds up along
its structure; what a loop costs is bounded by the measure that makes it end.
-/

namespace TaasFudge

namespace Prog
variable {σ α β : Type} {cost : σ → ℕ} {p : Prog σ α} {c d : ℕ}

/-- Every run of `p`, finished or not, costs at most `c`. -/
def Costs (cost : σ → ℕ) (c : ℕ) (p : Prog σ α) : Prop := ∀ k s, cost (p k s).2 ≤ cost s + c

theorem Costs.mono (h : Costs cost c p) (hcd : c ≤ d) : Costs cost d p := by
  intro k s
  have := h k s
  omega

theorem costs_pure (a : α) : Costs cost 0 (pure a : Prog σ α) := fun _ _ => Nat.le_add_right _ _

theorem costs_atomic {f : σ → α × σ} (h : ∀ s, cost (f s).2 ≤ cost s + c) :
    Costs cost c (atomic f) := fun _ s => h s

theorem Costs.bind {f : α → Prog σ β} (hp : Costs cost c p) (hf : ∀ a, Costs cost d (f a)) :
    Costs cost (c + d) (p >>= f) := by
  intro k s
  rw [bind_run]
  have hfirst := hp k s
  cases hrun : p k s with
  | mk result s' =>
    rw [hrun] at hfirst
    cases result with
    | none =>
      dsimp only at hfirst ⊢
      omega
    | some a =>
      have := hf a k s'
      dsimp only at hfirst ⊢
      omega

theorem Costs.bind_free {f : α → Prog σ β} (hp : Costs cost c p) (hf : ∀ a, Costs cost 0 (f a)) :
    Costs cost c (p >>= f) := hp.bind hf

theorem Costs.free_bind {f : α → Prog σ β} (hp : Costs cost 0 p) (hf : ∀ a, Costs cost d (f a)) :
    Costs cost d (p >>= f) := (hp.bind hf).mono (Nat.zero_add d).le

theorem Costs.ite {q : Prog σ α} {P : Prop} [Decidable P] (hp : Costs cost c p)
    (hq : Costs cost c q) : Costs cost c (if P then p else q) := by
  split_ifs
  · exact hp
  · exact hq

theorem costs_foldlM {ι : Type} {f : β → ι → Prog σ β} (h : ∀ b x, Costs cost 0 (f b x))
    (l : List ι) (b : β) : Costs cost 0 (l.foldlM f b) := by
  induction l generalizing b with
  | nil => exact costs_pure b
  | cons x l ih => exact (h b x).bind_free fun b' => ih b'

section Total
variable {Q R : α → σ → Prop} {s : σ} {k : ℕ} {J : σ → Prop}

/-- A terminating run has all properties of its outcome at once. -/
theorem Total.and (hQ : Total p Q s) (hR : Total p R s) : Total p (fun a s' => Q a s' ∧ R a s') s := by
  obtain ⟨a, s', hr, hQ⟩ := hQ
  exact ⟨a, s', hr, hQ, hR.of_returns hr⟩

/-- A terminating run has every one of a family of properties. -/
theorem Total.and_forall {ι : Sort*} {C : ι → Prop} {R : ι → α → σ → Prop} (hQ : Total p Q s)
    (hR : ∀ i, C i → Total p (R i) s) : Total p (fun a s' => Q a s' ∧ ∀ i, C i → R i a s') s := by
  obtain ⟨a, s', hr, hQ⟩ := hQ
  exact ⟨a, s', hr, hQ, fun i hi => (hR i hi).of_returns hr⟩

/-- What holds at the end of every bounded run holds at the end of a terminating one. -/
theorem Total.and_within (hQ : Total p Q s) (hR : ∀ k, Within k J p R s) :
    Total p (fun a s' => Q a s' ∧ R a s') s := by
  obtain ⟨a, s', ⟨N, hN⟩, hQ⟩ := hQ
  have hR := hR N
  rw [Within, hN N le_rfl] at hR
  exact ⟨a, s', ⟨N, hN⟩, hQ, hR⟩

theorem Total.costs (h : Total p Q s) (hc : Costs cost c p) :
    Total p (fun a s' => Q a s' ∧ cost s' ≤ cost s + c) s := by
  apply h.and_within (J := fun s' => cost s' ≤ cost s + c)
  intro k
  have hrun := hc k s
  rw [Within]
  split
  · rename_i heq
    rwa [heq] at hrun
  · rename_i heq
    rwa [heq] at hrun

/-- Rounds are charged to a potential, which need not be a function of the loop's own state.
The last round has a price of its own. -/
theorem Total.loop_charged {ι : Type*} {body : β → Prog σ (LoopStep β α)} (Inv : ι → β → σ → Prop)
    (pot : ι → ℕ)
    (hstep : ∀ i b s, Inv i b s → Total (body b) (LoopStep.post
      (fun b' s' => (∃ i', Inv i' b' s' ∧ pot i' < pot i) ∧ cost s' ≤ cost s + c)
      fun a s' => Q a s' ∧ cost s' ≤ cost s + d) s)
    {i : ι} {b : β} (hb : Inv i b s) :
    Total (Prog.loop body b) (fun a s' => Q a s' ∧ cost s' ≤ cost s + (c * pot i + d)) s := by
  apply Total.loop_indexed (fun i' b' s' => Inv i' b' s' ∧ cost s' + c * pot i' ≤ cost s + c * pot i)
    pot _ ⟨hb, le_rfl⟩
  rintro i₁ b₁ s₁ ⟨h₁, hle⟩
  apply (hstep i₁ b₁ s₁ h₁).mono
  rintro x s₂ hx
  cases x with
  | again b₂ =>
    obtain ⟨⟨i₂, h₂, hpot⟩, hcost⟩ := hx
    -- the round is paid for by the loss of potential
    have hmul : c * (pot i₂ + 1) ≤ c * pot i₁ := Nat.mul_le_mul_left c hpot
    rw [Nat.mul_succ] at hmul
    exact ⟨i₂, ⟨h₂, by omega⟩, hpot⟩
  | exit a =>
    obtain ⟨ha, hcost⟩ := hx
    exact ⟨ha, by omega⟩

theorem Total.loop_priced {body : β → Prog σ (LoopStep β α)} (Inv : β → σ → Prop) (μ : β → ℕ)
    (hstep : ∀ b s, Inv b s → Total (body b) (LoopStep.post
      (fun b' s' => Inv b' s' ∧ μ b' < μ b ∧ cost s' ≤ cost s + c)
      fun a s' => Q a s' ∧ cost s' ≤ cost s + d) s)
    {b : β} (hb : Inv b s) :
    Total (Prog.loop body b) (fun a s' => Q a s' ∧ cost s' ≤ cost s + (c * μ b + d)) s := by
  apply Total.loop_charged (fun i b' s' => Inv b' s' ∧ μ b' = i) id _ ⟨hb, rfl⟩
  rintro i b₁ s₁ ⟨h₁, rfl⟩
  apply (hstep b₁ s₁ h₁).mono
  rintro x s₂ hx
  cases x with
  | again b₂ => exact ⟨⟨μ b₂, ⟨hx.1, rfl⟩, hx.2.1⟩, hx.2.2⟩
  | exit a => exact hx

/-- A loop takes at most one round more than its measure says. -/
theorem Total.loop_costs {body : β → Prog σ (LoopStep β α)} (Inv : β → σ → Prop) (μ : β → ℕ)
    (hstep : ∀ b s, Inv b s →
      Total (body b) (LoopStep.post (fun b' s' => Inv b' s' ∧ μ b' < μ b) Q) s)
    (hcost : ∀ b s, Inv b s → Total (body b) (fun _ s' => cost s' ≤ cost s + c) s)
    {b : β} (hb : Inv b s) :
    Total (Prog.loop body b) (fun a s' => Q a s' ∧ cost s' ≤ cost s + c * (μ b + 1)) s := by
  apply Total.loop_priced Inv μ _ hb
  rintro b₁ s₁ h₁
  apply ((hstep b₁ s₁ h₁).and (hcost b₁ s₁ h₁)).mono
  rintro x s₂ ⟨hx, hround⟩
  cases x with
  | again b₂ => exact ⟨hx.1, hx.2, hround⟩
  | exit a => exact ⟨hx, hround⟩

theorem Total.loop_rounds {body : β → Prog σ (LoopStep β α)} (Inv : β → σ → Prop) (μ : β → ℕ)
    (hstep : ∀ b s, Inv b s →
      Total (body b) (LoopStep.post (fun b' s' => Inv b' s' ∧ μ b' < μ b) Q) s)
    (hcost : ∀ b, Costs cost c (body b)) {b : β} (hb : Inv b s) :
    Total (Prog.loop body b) (fun a s' => Q a s' ∧ cost s' ≤ cost s + c * (μ b + 1)) s := by
  apply Total.loop_costs Inv μ hstep _ hb
  intro b' s' hb'
  exact ((hstep b' s' hb').costs (hcost b')).mono fun _ _ h => h.2

end Total

end Prog

end TaasFudge
