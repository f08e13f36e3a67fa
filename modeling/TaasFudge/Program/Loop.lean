import Mathlib.Tactic.Common
import Mathlib.Order.Nat
import Mathlib.Algebra.Order.Group.Nat

/-! # Programs with unbounded loops

A program transforms a state and may run loops whose number of rounds is not
known in advance. It is executed with a bound on the rounds of each loop; a run
that exceeds the bound has no result, and keeps the state it reached. `Total`
says that some bound suffices and that the outcome satisfies a postcondition;
`Within` speaks about the run for one given bound, unfinished runs included.
-/

namespace TaasFudge

/-- A state transformer run with a bound on loop rounds; `none` is an unfinished run. -/
def Prog (σ α : Type) : Type := ℕ → σ → Option α × σ

/-- What a loop body asks for: another round, or the end of the loop. -/
inductive LoopStep (β α : Type) where
  | again (b : β)
  | exit (a : α)

/-- A postcondition of a loop body: what holds before another round, and at the end. -/
def LoopStep.post {β α σ : Type} (again : β → σ → Prop) (exit : α → σ → Prop) :
    LoopStep β α → σ → Prop
  | .again b => again b
  | .exit a => exit a

@[simp] theorem LoopStep.post_again {β α σ : Type} {I : β → σ → Prop} {Q : α → σ → Prop} (b : β) :
    (LoopStep.again b).post I Q = I b := rfl

@[simp] theorem LoopStep.post_exit {β α σ : Type} {I : β → σ → Prop} {Q : α → σ → Prop} (a : α) :
    (LoopStep.exit a).post I Q = Q a := rfl

def LoopStep.holds {β α : Type} (again : β → Prop) (exit : α → Prop) : LoopStep β α → Prop
  | .again b => again b
  | .exit a => exit a

namespace Prog
variable {σ α β γ : Type}

instance : Monad (Prog σ) where
  pure a := fun _ s => (some a, s)
  bind p f := fun k s => match p k s with
    | (some a, s') => f a k s'
    | (none, s') => (none, s')

theorem pure_run (a : α) (k : ℕ) (s : σ) : (pure a : Prog σ α) k s = (some a, s) := rfl

theorem bind_run (p : Prog σ α) (f : α → Prog σ β) (k : ℕ) (s : σ) :
    (p >>= f) k s = match p k s with
      | (some a, s') => f a k s'
      | (none, s') => (none, s') := rfl

instance : LawfulMonad (Prog σ) := by
  refine LawfulMonad.mk' _ (fun p => ?_) (fun _ _ => rfl) (fun p f g => ?_)
  · funext k s
    change (match p k s with | (some a, s') => _ | (none, s') => _) = _
    rcases p k s with ⟨_ | a, s'⟩ <;> rfl
  · funext k s
    simp only [bind_run]
    rcases p k s with ⟨_ | a, s'⟩ <;> rfl

def atomic (f : σ → α × σ) : Prog σ α := fun _ s => (some (f s).1, (f s).2)

def undefined : Prog σ α := fun _ s => (none, s)

def loopRounds (body : β → Prog σ (LoopStep β α)) : ℕ → β → Prog σ α
  | 0, _ => undefined
  | r + 1, b => body b >>= fun
    | .again b' => loopRounds body r b'
    | .exit a => pure a

/-- An unbounded loop: the bound of the run is the number of rounds it may take. -/
def loop (body : β → Prog σ (LoopStep β α)) (b : β) : Prog σ α :=
  fun k => loopRounds body k b k

def finish (f : α → Prog σ γ) : LoopStep β α → Prog σ (LoopStep β γ)
  | .again b => pure (.again b)
  | .exit a => do
    let c ← f a
    pure (.exit c)

/-- What follows a loop may be done by its body. -/
theorem loop_bind (body : β → Prog σ (LoopStep β α)) (f : α → Prog σ γ) (b : β) :
    loop body b >>= f = loop (fun b => body b >>= finish f) b := by
  have key : ∀ r b, loopRounds body r b >>= f = loopRounds (fun b => body b >>= finish f) r b := by
    intro r
    induction r with
    | zero => exact fun _ => rfl
    | succ r ih =>
      intro b
      rw [loopRounds, loopRounds, bind_assoc, bind_assoc]
      congr
      funext x
      cases x with
      | again b' => exact (ih b').trans (pure_bind _ _).symm
      | exit a => simp only [finish, pure_bind, bind_assoc, bind_pure]
  funext k s
  exact congrFun (congrFun (key k b) k) s

/-- Loops whose bodies differ only in what they leave to `f` and `g`. -/
theorem loop_bind_congr {δ : Type} {body : β → Prog σ (LoopStep β α)}
    {body' : β → Prog σ (LoopStep β γ)} {f : α → Prog σ δ} {g : γ → Prog σ δ}
    (h : ∀ b, body b >>= finish f = body' b >>= finish g) (b : β) :
    loop body b >>= f = loop body' b >>= g := by
  rw [loop_bind, loop_bind, funext h]

/-- With every large enough bound the run ends with the same result and final state. -/
def Returns (p : Prog σ α) (s : σ) (a : α) (s' : σ) : Prop :=
  ∃ N, ∀ k, N ≤ k → p k s = (some a, s')

/-- The run from `s` terminates, in an outcome satisfying `Q`. -/
def Total (p : Prog σ α) (Q : α → σ → Prop) (s : σ) : Prop :=
  ∃ a s', Returns p s a s' ∧ Q a s'

theorem Returns.unique {p : Prog σ α} {s s₁ s₂ : σ} {a₁ a₂ : α} (h₁ : Returns p s a₁ s₁)
    (h₂ : Returns p s a₂ s₂) : a₁ = a₂ ∧ s₁ = s₂ := by
  obtain ⟨N₁, h₁⟩ := h₁
  obtain ⟨N₂, h₂⟩ := h₂
  have h := (h₁ (max N₁ N₂) (le_max_left _ _)).symm.trans (h₂ _ (le_max_right _ _))
  simpa using h

theorem Total.of_returns {p : Prog σ α} {Q : α → σ → Prop} {s s' : σ} {a : α}
    (h : Total p Q s) (hr : Returns p s a s') : Q a s' := by
  obtain ⟨a₁, s₁, h₁, hQ⟩ := h
  obtain ⟨rfl, rfl⟩ := h₁.unique hr
  exact hQ

variable {p : Prog σ α} {Q R : α → σ → Prop} {s : σ}

@[simp] theorem total_pure {a : α} : Total (pure a : Prog σ α) Q s ↔ Q a s := by
  constructor
  · intro h
    exact h.of_returns ⟨0, fun _ _ => rfl⟩
  · exact fun h => ⟨a, s, ⟨0, fun _ _ => rfl⟩, h⟩

@[simp] theorem total_atomic {f : σ → α × σ} :
    Total (atomic f) Q s ↔ Q (f s).1 (f s).2 := by
  constructor
  · intro h
    exact h.of_returns ⟨0, fun _ _ => rfl⟩
  · exact fun h => ⟨_, _, ⟨0, fun _ _ => rfl⟩, h⟩

theorem Total.mono (h : Total p Q s) (hQ : ∀ a s', Q a s' → R a s') : Total p R s := by
  obtain ⟨a, s', hr, h⟩ := h
  exact ⟨a, s', hr, hQ a s' h⟩

theorem Total.bind {f : α → Prog σ β} {Q : β → σ → Prop}
    (h : Total p (fun a s' => Total (f a) Q s') s) : Total (p >>= f) Q s := by
  obtain ⟨a, s₁, ⟨N, hN⟩, b, s₂, ⟨M, hM⟩, hQ⟩ := h
  refine ⟨b, s₂, ⟨max N M, fun k hk => ?_⟩, hQ⟩
  rw [bind_run, hN k ((le_max_left N M).trans hk)]
  exact hM k ((le_max_right N M).trans hk)

@[simp] theorem total_atomic_bind {f : σ → α × σ} {g : α → Prog σ β} {Q : β → σ → Prop} :
    Total (atomic f >>= g) Q s ↔ Total (g (f s).1) Q (f s).2 := by
  constructor
  · rintro ⟨b, s₂, ⟨M, hM⟩, hQ⟩
    exact ⟨b, s₂, ⟨M, hM⟩, hQ⟩
  · exact fun h => Total.bind (total_atomic.2 h)

/-- A loop terminates when an invariant is kept while a natural number decreases. The number is
that of an index which the proof keeps beside the loop's own state. -/
theorem Total.loop_indexed {ι : Type*} {body : β → Prog σ (LoopStep β α)}
    (Inv : ι → β → σ → Prop) (μ : ι → ℕ)
    (hstep : ∀ i b s, Inv i b s → Total (body b)
      (LoopStep.post (fun b' s' => ∃ i', Inv i' b' s' ∧ μ i' < μ i) Q) s)
    {i : ι} {b : β} (hb : Inv i b s) : Total (Prog.loop body b) Q s := by
  -- the rounds needed and the bound needed inside each round are found together
  have key : ∀ m i b s, Inv i b s → μ i = m → ∃ a s', Q a s' ∧
      ∃ N, ∀ r k, N ≤ r → N ≤ k → loopRounds body r b k s = (some a, s') := by
    intro m
    induction m using Nat.strong_induction_on with
    | _ m ih =>
      intro i b s hb hm
      obtain ⟨r₁, s₁, ⟨N₁, h₁⟩, hr⟩ := hstep i b s hb
      cases r₁ with
      | exit a =>
        refine ⟨a, s₁, hr, N₁ + 1, fun r k hr hk => ?_⟩
        obtain ⟨r, rfl⟩ : ∃ r', r = r' + 1 := ⟨r - 1, by omega⟩
        rw [loopRounds, bind_run, h₁ k (by omega)]
        rfl
      | again b' =>
        obtain ⟨i', hb', hlt⟩ := hr
        obtain ⟨a, s', hQ, N₂, h₂⟩ := ih (μ i') (hm ▸ hlt) i' b' s₁ hb' rfl
        refine ⟨a, s', hQ, max N₁ N₂ + 1, fun r k hr hk => ?_⟩
        obtain ⟨r, rfl⟩ : ∃ r', r = r' + 1 := ⟨r - 1, by omega⟩
        rw [loopRounds, bind_run, h₁ k (by omega)]
        exact h₂ r k (by omega) (by omega)
  obtain ⟨a, s', hQ, N, hN⟩ := key (μ i) i b s hb rfl
  exact ⟨a, s', ⟨N, fun k hk => hN k k hk hk⟩, hQ⟩

theorem Total.loop {body : β → Prog σ (LoopStep β α)} (Inv : β → σ → Prop) (μ : β → ℕ)
    (hstep : ∀ b s, Inv b s →
      Total (body b) (LoopStep.post (fun b' s' => Inv b' s' ∧ μ b' < μ b) Q) s)
    {b : β} (hb : Inv b s) : Total (Prog.loop body b) Q s := by
  apply Total.loop_indexed (fun i b s => Inv b s ∧ μ b = i) id _ ⟨hb, rfl⟩
  rintro i b₁ s₁ ⟨h₁, rfl⟩
  apply (hstep b₁ s₁ h₁).mono
  rintro x s₂ hx
  cases x with
  | again b₂ => exact ⟨μ b₂, ⟨hx.1, rfl⟩, hx.2⟩
  | exit a => exact hx

theorem Total.loop_once {body : β → Prog σ (LoopStep β α)} {b : β}
    (h : Total (body b) (LoopStep.post (fun _ _ => False) Q) s) : Total (Prog.loop body b) Q s := by
  apply Total.loop (fun b' s' => b' = b ∧ s' = s) (fun _ => 0) _ ⟨rfl, rfl⟩
  rintro b' s' ⟨rfl, rfl⟩
  apply h.mono
  intro x s' hx
  cases x with
  | again b' => exact hx.elim
  | exit a => exact hx

/-- A fold over a list keeps an invariant of the part already visited. -/
theorem Total.foldlM {ι : Type} {f : β → ι → Prog σ β} (Inv : List ι → β → σ → Prop) (l : List ι)
    (hstep : ∀ pre, ∀ x ∈ l, ∀ b s, Inv pre b s →
      Total (f b x) (fun b' s' => Inv (pre ++ [x]) b' s') s)
    {b : β} (hb : Inv [] b s) :
    Total (l.foldlM f b) (fun b' s' => Inv l b' s') s := by
  suffices h : ∀ post, (∀ x ∈ post, x ∈ l) → ∀ pre b s, Inv pre b s →
      Total (post.foldlM f b) (fun b' s' => Inv (pre ++ post) b' s') s from
    h l (fun _ hx => hx) [] b s hb
  intro post
  induction post with
  | nil => intro _ pre b s h; simpa using h
  | cons x post ih =>
    intro hpost pre b s h
    rw [List.foldlM_cons]
    refine Total.bind ((hstep pre x (hpost x (by simp)) b s h).mono fun b' s' h' => ?_)
    simpa using ih (fun y hy => hpost y (by simp [hy])) (pre ++ [x]) b' s' h'

/-- The run with bound `k` ends in an outcome satisfying `Q`, or stops unfinished in a state
satisfying `J`. -/
def Within (k : ℕ) (J : σ → Prop) (p : Prog σ α) (Q : α → σ → Prop) (s : σ) : Prop :=
  match p k s with
  | (some a, s') => Q a s'
  | (none, s') => J s'

variable {k : ℕ} {J : σ → Prop}

@[simp] theorem within_pure {a : α} : Within k J (pure a : Prog σ α) Q s ↔ Q a s := Iff.rfl

@[simp] theorem within_atomic {f : σ → α × σ} :
    Within k J (atomic f) Q s ↔ Q (f s).1 (f s).2 := Iff.rfl

@[simp] theorem within_bind {f : α → Prog σ β} {Q : β → σ → Prop} :
    Within k J (p >>= f) Q s ↔ Within k J p (fun a s' => Within k J (f a) Q s') s := by
  simp only [Within, bind_run]
  rcases p k s with ⟨_ | a, s'⟩ <;> rfl

theorem Within.mono (h : Within k J p Q s) (hQ : ∀ a s', Q a s' → R a s') :
    Within k J p R s := by
  unfold Within at *
  split at h
  · exact hQ _ _ h
  · exact h

theorem Within.state (h : Within k J p (fun _ => J) s) : J (p k s).2 := by
  unfold Within at h
  split at h <;> simp_all

/-- A property of states kept by every round of a loop holds at its end and at every stop. -/
theorem Within.loop {body : β → Prog σ (LoopStep β α)} (Inv : β → σ → Prop)
    (hJ : ∀ b s, Inv b s → J s)
    (hstep : ∀ b s, Inv b s → Within k J (body b) (LoopStep.post Inv Q) s)
    {b : β} (hb : Inv b s) : Within k J (Prog.loop body b) Q s := by
  have key : ∀ r b s, Inv b s → Within k J (loopRounds body r b) Q s := by
    intro r
    induction r with
    | zero => exact fun b s h => hJ b s h
    | succ r ih =>
      intro b s h
      rw [loopRounds, within_bind]
      refine (hstep b s h).mono fun x s' hx => ?_
      cases x with
      | again b' => exact ih b' s' hx
      | exit a => exact hx
  exact key k b s hb

/-- With the bound one, a loop runs its body once. -/
theorem within_loop_one {body : β → Prog σ (LoopStep β α)} {b : β} :
    Within 1 J (Prog.loop body b) Q s ↔
      Within 1 J (body b) (LoopStep.post (fun _ => J) Q) s := by
  have hrun : Prog.loop body b 1 s = (body b >>= fun
      | .again _ => undefined
      | .exit a => pure a) 1 s := rfl
  rw [Within, hrun, ← Within, within_bind]
  constructor <;> refine fun h => h.mono fun x s' hx => ?_
  all_goals cases x <;> exact hx

theorem Within.foldlM {ι : Type} {f : β → ι → Prog σ β} (Inv : β → σ → Prop)
    (hstep : ∀ x b s, Inv b s → Within k J (f b x) Inv s)
    (l : List ι) {b : β} (hb : Inv b s) : Within k J (l.foldlM f b) Inv s := by
  induction l generalizing b s with
  | nil => simpa using hb
  | cons x l ih =>
    rw [List.foldlM_cons, within_bind]
    exact (hstep x b s hb).mono fun b' s' h => ih h

/-- From a state satisfying `J` every run, finished or not, leads to one, and all results
satisfy `Q`. -/
def Keeps (J : σ → Prop) (p : Prog σ α) (Q : α → Prop) : Prop :=
  ∀ k s, J s → Within k J p (fun a s' => J s' ∧ Q a) s

section Keeps
variable {Q : α → Prop} {R : β → Prop}

theorem Keeps.state (h : Keeps J p Q) (hs : J s) : J (p k s).2 :=
  ((h k s hs).mono fun _ _ h => h.1).state

theorem keeps_true (p : Prog σ α) : Keeps (fun _ => True) p fun _ => True := by
  intro k s _
  rw [Within]
  split <;> simp

theorem Keeps.pure {a : α} (h : Q a) : Keeps J (Pure.pure a : Prog σ α) Q :=
  fun _ _ hs => ⟨hs, h⟩

theorem Keeps.atomic {f : σ → α × σ} (h : ∀ s, J s → J (f s).2 ∧ Q (f s).1) :
    Keeps J (atomic f) Q := fun _ s hs => h s hs

theorem Keeps.mono {Q' : α → Prop} (h : Keeps J p Q) (hQ : ∀ a, Q a → Q' a) : Keeps J p Q' :=
  fun k s hs => (h k s hs).mono fun a _ h => ⟨h.1, hQ a h.2⟩

theorem Keeps.bind {f : α → Prog σ β} (hp : Keeps J p Q) (hf : ∀ a, Q a → Keeps J (f a) R) :
    Keeps J (p >>= f) R := fun k s hs =>
  within_bind.2 ((hp k s hs).mono fun a s' h => hf a h.2 k s' h.1)

theorem Keeps.loop {body : β → Prog σ (LoopStep β α)} (Inv : β → Prop)
    (hstep : ∀ b, Inv b → Keeps J (body b) (LoopStep.holds Inv Q)) {b : β} (hb : Inv b) :
    Keeps J (Prog.loop body b) Q := by
  intro k s hs
  refine Within.loop (fun b s => J s ∧ Inv b) (fun _ _ h => h.1) ?_ ⟨hs, hb⟩
  intro b s h
  refine (hstep b h.2 k s h.1).mono fun x s' hx => ?_
  cases x with
  | again b' => exact hx
  | exit a => exact hx

theorem Keeps.foldlM {ι : Type} {f : β → ι → Prog σ β} (Inv : β → Prop) (l : List ι)
    (hstep : ∀ b x, Inv b → Keeps J (f b x) Inv) {b : β} (hb : Inv b) :
    Keeps J (l.foldlM f b) Inv := fun k _ hs =>
  Within.foldlM (fun b s => J s ∧ Inv b) (fun x b s h => hstep b x h.2 k s h.1) l ⟨hs, hb⟩

theorem Keeps.andM {p q : Prog σ Bool} (hp : Keeps J p fun _ => True)
    (hq : Keeps J q fun _ => True) : Keeps J (p <&&> q) fun _ => True :=
  hp.bind fun b _ => by
    cases b with
    | false => exact Keeps.pure trivial
    | true => exact hq

theorem Keeps.orM {p q : Prog σ Bool} (hp : Keeps J p fun _ => True)
    (hq : Keeps J q fun _ => True) : Keeps J (p <||> q) fun _ => True :=
  hp.bind fun b _ => by
    cases b with
    | false => exact hq
    | true => exact Keeps.pure trivial

end Keeps

end Prog

end TaasFudge
