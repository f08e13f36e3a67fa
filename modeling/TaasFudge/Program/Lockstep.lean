import TaasFudge.Program.Loop

/-! # Programs in lockstep

Two programs run in lockstep when, from the same state and with the same bound, they end in the
same state, both without a result or with related ones. Programs whose results are moreover equal
are equal.
-/

namespace TaasFudge

inductive LoopStep.Rel {β β' α α' : Type} (I : β → β' → Prop) (Q : α → α' → Prop) :
    LoopStep β α → LoopStep β' α' → Prop
  | again {b : β} {b' : β'} (h : I b b') : Rel I Q (.again b) (.again b')
  | exit {a : α} {a' : α'} (h : Q a a') : Rel I Q (.exit a) (.exit a')

namespace Prog
variable {σ α α' β β' γ γ' : Type} {p : Prog σ α} {q : Prog σ α'} {R : α → α' → Prop}

def Lockstep (R : α → α' → Prop) (p : Prog σ α) (q : Prog σ α') : Prop :=
  ∀ k s, (p k s).2 = (q k s).2 ∧ Option.Rel R (p k s).1 (q k s).1

theorem lockstep_pure {a : α} {a' : α'} (h : R a a') :
    Lockstep R (pure a : Prog σ α) (pure a' : Prog σ α') := fun _ _ => ⟨rfl, .some h⟩

theorem lockstep_undefined : Lockstep R (undefined : Prog σ α) (undefined : Prog σ α') :=
  fun _ _ => ⟨rfl, .none⟩

theorem lockstep_atomic {f : σ → α × σ} {g : σ → α' × σ}
    (h : ∀ s, (f s).2 = (g s).2 ∧ R (f s).1 (g s).1) : Lockstep R (atomic f) (atomic g) :=
  fun _ s => ⟨(h s).1, .some (h s).2⟩

theorem lockstep_refl {R : α → α → Prop} (h : ∀ a, R a a) (p : Prog σ α) : Lockstep R p p := by
  intro k s
  refine ⟨rfl, ?_⟩
  cases (p k s).1 with
  | none => exact .none
  | some a => exact .some (h a)

theorem Lockstep.mono {S : α → α' → Prop} (h : Lockstep R p q) (hS : ∀ a a', R a a' → S a a') :
    Lockstep S p q := by
  intro k s
  obtain ⟨hs, hr⟩ := h k s
  refine ⟨hs, ?_⟩
  generalize (p k s).1 = r at hr ⊢
  generalize (q k s).1 = r' at hr ⊢
  cases hr with
  | none => exact .none
  | some ha => exact .some (hS _ _ ha)

theorem Lockstep.bind {S : β → β' → Prop} {f : α → Prog σ β} {g : α' → Prog σ β'}
    (h : Lockstep R p q) (hf : ∀ a a', R a a' → Lockstep S (f a) (g a')) :
    Lockstep S (p >>= f) (q >>= g) := by
  intro k s
  obtain ⟨hs, hr⟩ := h k s
  simp only [bind_run]
  rcases hp : p k s with ⟨r, s₁⟩
  rcases hq : q k s with ⟨r', s₂⟩
  rw [hp, hq] at hs hr
  dsimp only at hs hr
  subst hs
  cases hr with
  | none => exact ⟨rfl, .none⟩
  | some ha => exact hf _ _ ha k s₁

theorem Lockstep.ite {P : Prop} [Decidable P] {p' : Prog σ α} {q' : Prog σ α'}
    (h : Lockstep R p q) (h' : Lockstep R p' q') :
    Lockstep R (if P then p else p') (if P then q else q') := by
  split_ifs
  · exact h
  · exact h'

theorem Lockstep.loop {Q : α → α' → Prop} {body : β → Prog σ (LoopStep β α)}
    {body' : β' → Prog σ (LoopStep β' α')} (I : β → β' → Prop)
    (hstep : ∀ b b', I b b' → Lockstep (LoopStep.Rel I Q) (body b) (body' b')) {b : β} {b' : β'}
    (hb : I b b') : Lockstep Q (Prog.loop body b) (Prog.loop body' b') := by
  have key : ∀ r b b', I b b' → Lockstep Q (loopRounds body r b) (loopRounds body' r b') := by
    intro r
    induction r with
    | zero => exact fun _ _ _ => lockstep_undefined
    | succ r ih =>
      intro b b' hb
      apply (hstep b b' hb).bind
      intro x x' hx
      cases hx with
      | again h => exact ih _ _ h
      | exit h => exact lockstep_pure h
  exact fun k s => key k b b' hb k s

theorem Lockstep.foldlM {ι : Type} {f : β → ι → Prog σ β} {g : β' → ι → Prog σ β'}
    (I : β → β' → Prop) (l : List ι)
    (hstep : ∀ b b' x, I b b' → Lockstep I (f b x) (g b' x)) {b : β} {b' : β'} (hb : I b b') :
    Lockstep I (l.foldlM f b) (l.foldlM g b') := by
  induction l generalizing b b' with
  | nil => exact lockstep_pure hb
  | cons x l ih =>
    rw [List.foldlM_cons, List.foldlM_cons]
    exact (hstep b b' x hb).bind fun _ _ h => ih h

theorem lockstep_bind {S : β → β' → Prop} {f : α → Prog σ β} {g : α → Prog σ β'} (p : Prog σ α)
    (hf : ∀ a, Lockstep S (f a) (g a)) : Lockstep S (p >>= f) (p >>= g) := by
  apply (lockstep_refl (fun _ => rfl) p : Lockstep (· = ·) p p).bind
  rintro a _ rfl
  exact hf a

theorem lockstep_of_eq {p q : Prog σ α} (h : p = q) : Lockstep (· = ·) p q :=
  h ▸ lockstep_refl (fun _ => rfl) p

theorem Lockstep.eq {p q : Prog σ α} (h : Lockstep (· = ·) p q) : p = q := by
  funext k s
  obtain ⟨hs, hr⟩ := h k s
  apply Prod.ext _ hs
  generalize (p k s).1 = r at hr
  generalize (q k s).1 = r' at hr
  cases hr with
  | none => rfl
  | some h => rw [h]

end Prog

end TaasFudge
