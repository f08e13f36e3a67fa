import TaasFudge.Tasks.OneSided
import TaasFudge.Tasks.RangeGrowth

/-! # The range queries read one sign

DC-SST, DS-SST, DC-STG and DS-STG take an argument for labelled when one of its two values is
positive, and offer every other one to the next search. It does not matter whether its values are
negative or open.
-/

namespace TaasFudge

open Dimacs Prog

variable {n : ℕ}

structure RangeAlike (st st' : RangeState n) : Prop where
  inner : Alike false st.inner st'.inner
  notUndec : st.notUndec = st'.notUndec
  inArg : st.inArg = st'.inArg

def ClauseAlike (p p' : RangeState n × List ℤ) : Prop := RangeAlike p.1 p'.1 ∧ p.2 = p'.2

section Growing
variable {inVars outVars : Fin n → ℤ} {st st' : RangeState n} {solver solver' : IpasirSolver}

theorem satEitherPos_congr (h : Alike false solver solver') {v₁ v₂ : ℤ} (h₁ : 0 < v₁)
    (h₂ : 0 < v₂) : satEitherPos solver' v₁ v₂ = satEitherPos solver v₁ v₂ := by
  rw [satEitherPos, satEitherPos, satPos_congr h h₁, satPos_congr h h₂]

theorem RangeAlike.keepLabelled (h : RangeAlike st st') (i : Fin n) :
    RangeAlike (st.keepLabelled inVars outVars i) (st'.keepLabelled inVars outVars i) :=
  ⟨h.inner.satAddClause2 _ _, congrArg (·.add i) h.notUndec, h.inArg⟩

theorem RangeAlike.takeIn (h : RangeAlike st st') (b : Bool) (i : Fin n) :
    RangeAlike (st.takeIn b i) (st'.takeIn b i) := by
  cases b with
  | false => exact h
  | true => exact ⟨h.inner, h.notUndec, congrArg (·.add i) h.inArg⟩

theorem RangeAlike.keepNew (inVars outVars : Fin n → ℤ) (h : RangeAlike st st') (arg i : Fin n) :
    RangeAlike
      (if !st.notUndec.contains i && decide (arg ≠ i) then st.keepLabelled inVars outVars i else st)
      (if !st'.notUndec.contains i && decide (arg ≠ i) then st'.keepLabelled inVars outVars i
        else st') := by
  rw [← h.notUndec]
  split_ifs
  · exact h.keepLabelled i
  · exact h

theorem lockstep_rangeStart (hv : LabelVars inVars outVars) (hsolver : Alike false solver solver')
    (h : RangeAlike st st') : Lockstep ClauseAlike (rangeStart inVars outVars solver st)
      (rangeStart inVars outVars solver' st') := by
  rw [rangeStart, rangeStart]
  have hstart : ClauseAlike (st, ([] : List ℤ)) (st', []) := ⟨h, rfl⟩
  apply Lockstep.foldlM ClauseAlike _ _ hstart
  rintro ⟨st, clause⟩ ⟨st', _⟩ i ⟨h, rfl⟩
  dsimp only
  rw [satEitherPos_congr hsolver (hv.in_pos i) (hv.out_pos i), satPos_congr hsolver (hv.in_pos i)]
  apply lockstep_bind
  intro isLabelled
  apply Lockstep.ite
  · apply lockstep_bind
    exact fun isIn => lockstep_pure ⟨(h.takeIn isIn i).keepLabelled i, rfl⟩
  · exact lockstep_pure ⟨h, rfl⟩

theorem lockstep_growInPlace (hv : LabelVars inVars outVars) (arg : Fin n) (h : RangeAlike st st') :
    Lockstep ClauseAlike (growInPlace inVars outVars arg st)
      (growInPlace inVars outVars arg st') := by
  rw [growInPlace, growInPlace]
  have hstart : ClauseAlike (st, ([] : List ℤ)) (st', []) := ⟨h, rfl⟩
  apply Lockstep.foldlM ClauseAlike _ _ hstart
  rintro ⟨st, clause⟩ ⟨st', _⟩ i ⟨h, rfl⟩
  rw [growInPlaceAt, growInPlaceAt]
  dsimp only
  rw [satEitherPos_congr h.inner (hv.in_pos i) (hv.out_pos i)]
  apply lockstep_bind
  intro isLabelled
  have hnew := h.keepNew inVars outVars arg i
  apply Lockstep.ite
  · rw [satPos_congr hnew.inner (hv.in_pos i)]
    apply lockstep_bind
    exact fun isIn => lockstep_pure ⟨hnew.takeIn isIn i, rfl⟩
  · exact lockstep_pure ⟨h, rfl⟩

theorem clauseAlike_growBody (arg : Fin n) (labelled isIn : Fin n → Bool) (xs : List (Fin n))
    {p p' : RangeState n × List ℤ} (h : ClauseAlike p p') :
    ClauseAlike (xs.foldl (growBody inVars outVars arg labelled isIn) p)
      (xs.foldl (growBody inVars outVars arg labelled isIn) p') := by
  induction xs generalizing p p' with
  | nil => exact h
  | cons x xs ih =>
    apply ih
    by_cases hx : labelled x = true
    · rw [growBody, growBody, if_pos hx, if_pos hx]
      exact ⟨(h.1.keepNew inVars outVars arg x).takeIn _ x, h.2⟩
    · rw [growBody, growBody, if_neg hx, if_neg hx]
      exact ⟨h.1, congrArg (· ++ [inVars x, outVars x]) h.2⟩

theorem lockstep_growBuffered (hv : LabelVars inVars outVars) (arg : Fin n) (h : RangeAlike st st') :
    Lockstep ClauseAlike (growBuffered inVars outVars arg st)
      (growBuffered inVars outVars arg st') := by
  have heither := fun i => satEitherPos_congr h.inner (hv.in_pos i) (hv.out_pos i)
  have hpos := fun i => satPos_congr h.inner (hv.in_pos i)
  rw [growBuffered, growBuffered]
  simp only [heither, hpos]
  apply lockstep_bind
  exact fun vars => lockstep_pure
    (clauseAlike_growBody arg vars.1.contains vars.2.contains _ ⟨h, rfl⟩)

end Growing

section Loops
variable (ω : SatOracle) {task : RangeTask n} {aaf : AAF n} {grounded : Labeling} {arg : Fin n}
  {doPrint : Bool} {inVars outVars : Fin n → ℤ} {solver solver' : IpasirSolver}
  {st st' : RangeState n}

/-- The growth of the task runs in lockstep from states that look alike. -/
def RangeTask.Positive (task : RangeTask n) : Prop :=
  ∀ {inVars outVars : Fin n → ℤ}, LabelVars inVars outVars → ∀ (arg : Fin n)
    {st st' : RangeState n}, RangeAlike st st' →
      Lockstep ClauseAlike (task.grow inVars outVars arg st) (task.grow inVars outVars arg st')

/-- The inner loop ends with the same answer, or with outer objects that look alike. -/
def AnswerAlike (r r' : Option Bool × IpasirSolver) : Prop := r.1 = r'.1 ∧ Alike false r.2 r'.2

theorem lockstep_rangeInner (htask : task.Positive) (hv : LabelVars inVars outVars)
    (hsolver : Alike false solver solver') (h : RangeAlike st st') :
    Lockstep (LoopStep.Rel RangeAlike AnswerAlike)
      (rangeInner ω.answer task aaf arg doPrint inVars outVars solver st)
      (rangeInner ω.complete.answer task aaf arg doPrint inVars outVars solver' st') := by
  apply (lockstep_satAssume h.inner _).bind
  intro inner inner' hinner
  apply (lockstep_satSolve ω hinner rfl).bind
  rintro ⟨sat, inner⟩ ⟨_, inner'⟩ ⟨rfl, hinner, -⟩
  apply Lockstep.ite
  · apply (lockstep_satSolve ω hinner rfl).bind
    rintro ⟨sat, _⟩ ⟨_, _⟩ ⟨rfl, -, -⟩
    dsimp only
    rw [h.inArg, h.notUndec]
    apply Lockstep.ite
    · apply lockstep_bind
      exact fun _ => lockstep_pure (.exit ⟨rfl, hsolver⟩)
    · refine lockstep_pure (.exit ⟨rfl, Alike.satAdd (Alike.foldl (fun s s' i hs => ?_) _ hsolver) 0⟩)
      split_ifs
      · exact (hs.satAdd _).satAdd _
      · exact hs
  · have hst : RangeAlike { st with inner := inner, inArg := st.inArg.reset }
        { st' with inner := inner', inArg := st'.inArg.reset } :=
      ⟨hinner, h.notUndec, congrArg RaSet.reset h.inArg⟩
    apply (htask hv arg hst).bind
    rintro ⟨st, clause⟩ ⟨st', _⟩ ⟨h, rfl⟩
    exact lockstep_pure (.again ⟨h.inner.satAddClause _ _, h.notUndec, h.inArg⟩)

theorem lockstep_rangeOuter (htask : task.Positive) (hv : LabelVars inVars outVars)
    (hsolver : Alike false solver solver') : Lockstep (LoopStep.Rel (Alike false) (· = ·))
      (rangeOuter ω.answer task aaf grounded arg doPrint inVars outVars solver)
      (rangeOuter ω.complete.answer task aaf grounded arg doPrint inVars outVars solver') := by
  apply (lockstep_satAssume hsolver _).bind
  intro solver solver' hsolver
  apply (lockstep_satSolve ω hsolver rfl).bind
  rintro ⟨sat, solver⟩ ⟨_, solver'⟩ ⟨rfl, hsolver, -⟩
  apply Lockstep.ite
  · apply lockstep_bind
    exact fun _ => lockstep_pure (.exit rfl)
  · apply (lockstep_rangeStart hv hsolver ⟨.refl false _, rfl, rfl⟩).bind
    rintro ⟨st, clause⟩ ⟨st', _⟩ ⟨h, rfl⟩
    have hloop : Lockstep AnswerAlike
        (loop (rangeInner ω.answer task aaf arg doPrint inVars outVars solver)
          { st with inner := satAddClause st.inner clause clause.length })
        (loop (rangeInner ω.complete.answer task aaf arg doPrint inVars outVars solver')
          { st' with inner := satAddClause st'.inner clause clause.length }) :=
      Lockstep.loop RangeAlike (fun _ _ h => lockstep_rangeInner ω htask hv hsolver h)
        ⟨h.inner.satAddClause _ _, h.notUndec, h.inArg⟩
    apply hloop.bind
    rintro ⟨found, solver⟩ ⟨_, solver'⟩ ⟨rfl, hsolver⟩
    cases found with
    | none => exact lockstep_pure (.again hsolver)
    | some answer => exact lockstep_pure (.exit rfl)

theorem rangeQuery_complete (htask : task.Positive) :
    rangeQuery ω.answer task aaf grounded arg doPrint =
      rangeQuery ω.complete.answer task aaf grounded arg doPrint := by
  have hv := labelVars_numberPairs n Int.one_pos
  rw [rangeQuery, rangeQuery]
  apply Lockstep.eq
  apply Lockstep.ite (lockstep_of_eq rfl)
  exact Lockstep.loop (Alike false) (fun _ _ h => lockstep_rangeOuter ω htask hv h) (.refl false _)

theorem positive_sst : (dcsst n).Positive ∧ (dssst n).Positive :=
  ⟨fun hv arg _ _ h => lockstep_growBuffered hv arg h,
    fun hv arg _ _ h => lockstep_growBuffered hv arg h⟩

theorem positive_stg : (dcstg n).Positive ∧ (dsstg n).Positive :=
  ⟨fun hv arg _ _ h => lockstep_growInPlace hv arg h,
    fun hv arg _ _ h => lockstep_growInPlace hv arg h⟩

end Loops

end TaasFudge
