import TaasFudge.Cnf.Dimacs

/-! # Completing models

An oracle whose models leave variables open becomes one whose models are total when all open
variables are given one value. Completed by false a model keeps its true literals, completed by
true its false ones, and what is rigid in a family of assignments that contains all completions is
not open in the first place.
-/

namespace TaasFudge.Dimacs

def PartialModel.fill (m : PartialModel) (b : Bool) : Assignment := fun v => (m v).getD b

/-- The test `sat__get(solver, var) < 0` or `sat__get(solver, var) > 0` on a value. -/
def sign (b : Bool) (value : ℤ) : Bool := if b then decide (value < 0) else decide (0 < value)

section Models
variable {m : PartialModel} {τ : Assignment} {b : Bool} {l : ℤ}

theorem PartialModel.completion_fill (m : PartialModel) (b : Bool) : m.Completion (m.fill b) :=
  fun v c h => by rw [fill, h, Option.getD_some]

@[simp] theorem sign_false (value : ℤ) : sign false value = decide (0 < value) := rfl
@[simp] theorem sign_true (value : ℤ) : sign true value = decide (value < 0) := rfl

theorem PartialModel.sign_fill (m : PartialModel) (b : Bool) (hl : 0 < l) :
    sign b ((m.fill b).model.value l) = sign b (m.value l) := by
  cases b with
  | false =>
    rw [sign_false, sign_false, decide_eq_decide, value_pos_iff _ hl, value_pos_iff _ hl]
    rcases h : m l.natAbs with _ | _ | _ <;> simp [Assignment.model, fill, h]
  | true =>
    rw [sign_true, sign_true, decide_eq_decide, value_neg_iff _ hl, value_neg_iff _ hl]
    rcases h : m l.natAbs with _ | _ | _ <;> simp [Assignment.model, fill, h]

/-- No member of the family remains one when the variable is flipped. -/
def Rigid (M : Assignment → Prop) (v : ℕ) : Prop :=
  ∀ τ, M τ → ¬ M (Function.update τ v (!τ v))

variable {M M' : Assignment → Prop} {v : ℕ}

theorem Rigid.mono (h : Rigid M v) (hsub : ∀ τ, M' τ → M τ) : Rigid M' v :=
  fun τ hτ hflip => h τ (hsub _ hτ) (hsub _ hflip)

theorem PartialModel.Completion.update_of_open (h : m.Completion τ) (hv : m v = none) (b : Bool) :
    m.Completion (Function.update τ v b) := by
  intro u c hu
  rw [Function.update_of_ne]
  · exact h u c hu
  · rintro rfl
    rw [hv] at hu
    cases hu

theorem Rigid.ne_none (h : Rigid M v) (hm : ∀ τ, m.Completion τ → M τ) : m v ≠ none := by
  intro hv
  have hfill := m.completion_fill false
  exact h _ (hm _ hfill) (hm _ (hfill.update_of_open hv _))

theorem Rigid.value_fill (h : Rigid M l.natAbs) (hm : ∀ τ, m.Completion τ → M τ) (b : Bool) :
    (m.fill b).model.value l = m.value l := by
  obtain ⟨c, hc⟩ := Option.ne_none_iff_exists'.1 (h.ne_none hm)
  simp only [PartialModel.value, Assignment.model, PartialModel.fill, hc, Option.getD_some]

theorem Assignment.lit_update_of_ne {l l' : ℤ} (h : l'.natAbs ≠ l.natAbs) (τ : Assignment)
    (b : Bool) : Assignment.lit (Function.update τ l.natAbs b) l' = τ.lit l' := by
  rw [lit, lit, Function.update_of_ne h]

theorem Assignment.lit_flip (τ : Assignment) (l : ℤ) :
    Assignment.lit (Function.update τ l.natAbs (!τ l.natAbs)) l = !τ.lit l := by
  simp only [lit, Function.update_self]
  split_ifs <;> rfl

end Models

def Answer.fill (b : Bool) : Answer → Answer
  | .sat m => .sat (m.fill b).model
  | .unsat => .unsat

theorem Answer.Sound.fill {q : Query} {a : Answer} (h : a.Sound q) (b : Bool) :
    (a.fill b).Sound q := by
  cases a with
  | sat m =>
    intro τ hτ
    rw [Assignment.model_completion_iff.1 hτ]
    exact h _ (m.completion_fill b)
  | unsat => exact h

/-- The models give every variable a value. -/
def SatOracle.IsTotal (ω : SatOracle) : Prop :=
  ∀ k q m, ω.answer k q = .sat m → ∃ τ : Assignment, m = τ.model

/-- The oracle whose models are completed, by a value that may depend on the query. -/
def SatOracle.fillBy (ω : SatOracle) (b : Query → Bool) : TotalOracle where
  answer k q := (ω.answer k q).fill (b q)
  sound k q := (ω.sound k q).fill (b q)
  total k q m h := by
    cases ha : ω.answer k q with
    | sat m' =>
      rw [ha] at h
      exact ⟨m'.fill (b q), (Answer.sat.inj h).symm⟩
    | unsat =>
      rw [ha] at h
      cases h

/-- The oracle whose models are completed by false. -/
def SatOracle.complete (ω : SatOracle) : TotalOracle := ω.fillBy fun _ => false

end TaasFudge.Dimacs
