import TaasFudge.Tasks.RangeCorrectness
import TaasFudge.Tasks.Searches

/-! # How often the range tasks ask

A climb of the inner loop labels more and more arguments and ends at a largest range, or at one
that the argument of the query is missing from. The outer object then leaves it for good, so
there are at most two rounds of the outer loop for each largest range, and one more.
-/

namespace TaasFudge

open Dimacs Prog

variable {n : ℕ}

section Range
variable {aaf : AAF n} {grounded : Labeling} {arg : Fin n} {doPrint : Bool} {task : RangeTask n}
  {L : Set (Fin n) → Set (Fin n) → Prop} {Ext : Set (Fin n) → Prop}
  {inVars outVars : Fin n → ℤ} {first : Set (Fin n)} {st st' : RangeState n}
  {b₀ b₁ : Set (Fin n) × Set (Fin n)} {R : Set (Fin n) × Set (Fin n) → Prop}

def RangeTask.Candidate (task : RangeTask n) (arg : Fin n) (L : Set (Fin n) → Set (Fin n) → Prop)
    (S : Set (Fin n)) : Prop := (∃ O, L S O) ∧ task.Meets arg S

/-- Every argument not yet kept labelled counts twice, because the argument of the query, which
is never kept when it becomes labelled, may come and go. -/
noncomputable def climbLeft (arg : Fin n) (notUndec : RaSet n) (T : Set (Fin n)) : ℕ :=
  open Classical in 2 * (n - notUndec.numberOfElements) + if arg ∈ T then 0 else 1

theorem climbLeft_le (notUndec : RaSet n) (T : Set (Fin n)) :
    climbLeft arg notUndec T ≤ 2 * n + 1 := by
  rw [climbLeft]
  split_ifs <;> omega

/-- All labelled arguments are kept labelled, but perhaps the one of the query. -/
def Kept (arg : Fin n) (st : RangeState n) (b : Set (Fin n) × Set (Fin n)) : Prop :=
  b.1 ∪ b.2 ⊆ insert arg st.notUndec.toSet

theorem GrownFrom.kept {old : RaSet n} {new : Fin n → Bool}
    (hg : GrownFrom inVars outVars old st' b₁ R new)
    (hnew : ∀ i, new i = true ↔ i ∈ b₁.1 ∪ b₁.2 ∧ i ∉ old ∧ arg ≠ i) : Kept arg st' b₁ := by
  intro i hi
  by_cases harg : arg = i
  · exact .inl harg.symm
  · refine .inr ((hg.notUndec i).2 ?_)
    by_cases hold : i ∈ old
    · exact .inl hold
    · exact .inr ((hnew i).2 ⟨hi, hold, harg⟩)

theorem RangeInv.climbLeft_lt {new : Fin n → Bool}
    (h : RangeInv task arg L inVars outVars first st b₀ R) (hb₁ : R b₁)
    (hg : GrownFrom inVars outVars st.notUndec st' b₁ R new)
    (hnew : ∀ i, new i = true ↔ i ∈ b₁.1 ∪ b₁.2 ∧ i ∉ st.notUndec ∧ arg ≠ i) :
    climbLeft arg st'.notUndec (b₁.1 ∪ b₁.2) < climbLeft arg st.notUndec (b₀.1 ∪ b₀.2) := by
  obtain ⟨-, -, hnot⟩ := h.sound b₁ hb₁
  obtain ⟨i, hi, hi₀⟩ := Set.not_subset.1 hnot
  have hold : st.notUndec.toSet ⊆ st'.notUndec.toSet := fun j hj => (hg.notUndec j).2 (.inl hj)
  have hiold : i ∉ st.notUndec := fun hmem => hi₀ (h.notUndec_subset hmem)
  by_cases harg : arg = i
  · -- the argument of the query has become labelled
    subst harg
    have hle := RaSet.numberOfElements_eq_ncard st.notUndec ▸
      RaSet.numberOfElements_eq_ncard st'.notUndec ▸ Set.ncard_le_ncard hold (Set.toFinite _)
    rw [climbLeft, climbLeft, if_pos hi, if_neg hi₀]
    omega
  · have hlt := RaSet.room_lt (s := st.notUndec) (t := st'.notUndec)
      ((Set.ssubset_iff_of_subset hold).2
        ⟨i, (hg.notUndec i).2 (.inr ((hnew i).2 ⟨hi, hiold, harg⟩)), hiold⟩)
    rw [climbLeft, climbLeft]
    split_ifs <;> omega

/-- A model of the inner object that meets the query is one more step of the climb. -/
theorem RangeInv.climb (hv : LabelVars inVars outVars)
    (h : RangeInv task arg L inVars outVars first st b₀ R) {τ : Assignment}
    (hτ : R (labels inVars outVars τ)) (hmeets : task.Meets arg (labels inVars outVars τ).1)
    (hst' : st' = closeGrowth (grownBy inVars outVars arg
      ⟨st.inner.satisfied τ.model, st.notUndec, st.inArg.reset⟩)) :
    ∃ b₁ R', (RangeInv task arg L inVars outVars first st' b₁ R' ∧ Kept arg st' b₁) ∧
      climbLeft arg st'.notUndec (b₁.1 ∪ b₁.2) < climbLeft arg st.notUndec (b₀.1 ∪ b₀.2) := by
  have hgrown := grownFrom_grown hv τ
    (fun i => isLabelled τ.model inVars outVars i &&
      (!st.notUndec.contains i && decide (arg ≠ i)))
    ⟨st.inner.satisfied τ.model, st.notUndec, st.inArg.reset⟩
    (h.describes.satisfied τ.model) (fun i => RaSet.mem_reset)
  have hnew : ∀ i, (isLabelled τ.model inVars outVars i &&
      (!st.notUndec.contains i && decide (arg ≠ i))) = true ↔
      i ∈ selected τ inVars ∪ selected τ outVars ∧ i ∉ st.notUndec ∧ arg ≠ i := by
    intro i
    rw [Bool.and_eq_true, isLabelled_iff hv, Bool.and_eq_true, Bool.not_eq_true',
      RaSet.contains_eq_false_iff, decide_eq_true_eq]
  obtain ⟨⟨R', hinv⟩, -⟩ := h.step hτ hmeets hgrown fun i hi => ((hnew i).1 hi).1
  subst hst'
  exact ⟨_, R', ⟨hinv, hgrown.kept hnew⟩, h.climbLeft_lt hτ hgrown hnew⟩

/-- A climb that cannot go on has reached a largest range. -/
theorem RangeInv.largest (hsem : Framework.RangeSemantics aaf.framework L Ext)
    (hfull : ∀ {S O}, L S O → L S (aaf.framework.attackedBy S))
    (h : RangeInv task arg L inVars outVars first st b₀ R)
    (hno : ∀ b, R b → ¬ task.Meets arg b.1) :
    b₀.1 ∪ b₀.2 ∈ aaf.framework.largestRanges (task.Candidate arg L) := by
  -- no candidate has a larger range
  have hmax : ∀ T, task.Candidate arg L T → b₀.1 ∪ b₀.2 ⊆ aaf.framework.range T →
      aaf.framework.range T ⊆ b₀.1 ∪ b₀.2 := by
    rintro T ⟨⟨O, hT⟩, hmeets⟩ hsub
    by_contra hnot
    exact hno _ (h.complete (T, aaf.framework.attackedBy T) (hfull hT) hsub hnot) hmeets
  have hcand : task.Candidate arg L b₀.1 := ⟨⟨_, h.labelling⟩, h.meets⟩
  have hrange : aaf.framework.range b₀.1 = b₀.1 ∪ b₀.2 :=
    (hmax _ hcand (hsem.subset_range h.labelling)).antisymm (hsem.subset_range h.labelling)
  refine ⟨b₀.1, ⟨hcand, fun T hT hle => ?_⟩, hrange⟩
  rw [hrange] at hle ⊢
  exact hmax T hT hle

/-- How the inner loop ends without an answer: the outer object leaves a nearly largest range. -/
def LeavesLargest (task : RangeTask n) (aaf : AAF n) (arg : Fin n)
    (L : Set (Fin n) → Set (Fin n) → Prop) (inVars outVars : Fin n → ℤ) (solver : IpasirSolver)
    (first : Set (Fin n)) (r : Option Bool × IpasirSolver) : Prop :=
  r.1 = none → ∃ N : RaSet n, first ⊆ N.toSet ∧
    N.toSet ∈ aaf.framework.nearlyLargest (task.Candidate arg L) arg ∧
    r.2 = solver.push (((List.finRange n).filter fun i : Fin n => !N.contains i).flatMap
      (pairClause inVars outVars))

/-- What the bounds need to know of a task beyond its correctness. -/
structure RangeTask.Counted (task : RangeTask n) (aaf : AAF n)
    (L : Set (Fin n) → Set (Fin n) → Prop) : Prop where
  full : ∀ {S O}, L S O → L S (aaf.framework.attackedBy S)
  grow_free : ∀ (inVars outVars : Fin n → ℤ) arg st,
    Costs World.calls 0 (task.grow inVars outVars arg st)

theorem rangeInner_searches (ω : TotalOracle) (hv : LabelVars inVars outVars)
    (hc : task.Correct aaf grounded L Ext) (hcount : task.Counted aaf L) {solver : IpasirSolver}
    (h : RangeInv task arg L inVars outVars first st b₀ R) (hkept : Kept arg st b₀) (w : World) :
    Total (rangeInner ω.answer task aaf arg doPrint inVars outVars solver st) (LoopStep.post
      (fun st' w' => (∃ b₁ R', (RangeInv task arg L inVars outVars first st' b₁ R' ∧
          Kept arg st' b₁) ∧
          climbLeft arg st'.notUndec (b₁.1 ∪ b₁.2) < climbLeft arg st.notUndec (b₀.1 ∪ b₀.2)) ∧
        w'.calls ≤ w.calls + 1)
      fun r w' => LeavesLargest task aaf arg L inVars outVars solver first r ∧
        w'.calls ≤ w.calls + 2) w := by
  rw [rangeInner, satAssume_of_closed h.describes.closed, pure_bind]
  apply Total.bind
  apply h.describes.total_search ω [task.literal arg inVars] (A := fun b => task.Meets arg b.1)
    (task.lit_literal hv)
  · intro τ w₁ hτ hmeets hw₁
    dsimp only
    rw [if_neg (by decide)]
    apply Total.bind
    apply ((hc.grows hv arg ⟨st.inner.satisfied τ.model, st.notUndec, st.inArg.reset⟩ w₁
      rfl).costs (hcount.grow_free _ _ _ _)).mono
    rintro _ w₂ ⟨⟨rfl, -⟩, hw₂⟩
    exact total_pure.2 ⟨h.climb hv hτ hmeets rfl, by omega⟩
  · intro w₁ hno hw₁
    dsimp only
    rw [if_pos rfl]
    apply Total.bind
    apply h.describes.refuted.total_search ω [] (A := fun _ => True) (fun τ => by simp)
    · intro υ w₂ _ _ hw₂
      dsimp only
      rw [if_neg (by decide), foldl_leave hv, total_pure]
      refine ⟨fun _ => ⟨st.notUndec, h.first_subset, ?_, rfl⟩, by omega⟩
      exact Framework.mem_nearlyLargest (h.largest hc.semantics hcount.full hno)
        h.notUndec_subset hkept
    · intro w₂ _ hw₂
      dsimp only
      rw [if_pos rfl]
      apply Total.bind
      apply (report_searches (c := 0) fun w' => total_atomic.2 le_rfl).mono
      intro _ w₃ hw₃
      apply total_pure.2
      exact ⟨fun hnone => by simp at hnone, by omega⟩

theorem rangeLoop_searches (ω : TotalOracle) (hv : LabelVars inVars outVars)
    (hc : task.Correct aaf grounded L Ext) (hcount : task.Counted aaf L) {solver : IpasirSolver}
    (h : RangeInv task arg L inVars outVars first st b₀ R) (hkept : Kept arg st b₀) (w : World) :
    Total (Prog.loop (rangeInner ω.answer task aaf arg doPrint inVars outVars solver) st)
      (fun r w' => LeavesLargest task aaf arg L inVars outVars solver first r ∧
        w'.calls ≤ w.calls + (2 * n + 3)) w := by
  have hloop : Total (Prog.loop (rangeInner ω.answer task aaf arg doPrint inVars outVars solver) st)
      (fun r w' => LeavesLargest task aaf arg L inVars outVars solver first r ∧
        w'.calls ≤ w.calls + (1 * climbLeft arg st.notUndec (b₀.1 ∪ b₀.2) + 2)) w := by
    apply Total.loop_charged (fun k st _ => ∃ b R, (RangeInv task arg L inVars outVars first st b R ∧
        Kept arg st b) ∧ climbLeft arg st.notUndec (b.1 ∪ b.2) = k) id _
      ⟨b₀, R, ⟨h, hkept⟩, rfl⟩
    rintro k st w' ⟨b, R, ⟨h, hkept⟩, rfl⟩
    apply (rangeInner_searches ω hv hc hcount h hkept w').mono
    rintro x w'' hx
    cases x with
    | again st' =>
      obtain ⟨⟨b', R', hinv, hlt⟩, hx⟩ := hx
      exact ⟨⟨_, ⟨b', R', hinv, rfl⟩, hlt⟩, hx⟩
    | exit r => exact hx
  apply hloop.mono
  rintro r w' ⟨hr, hw'⟩
  have hle : climbLeft arg st.notUndec (b₀.1 ∪ b₀.2) ≤ 2 * n + 1 := climbLeft_le _ _
  exact ⟨hr, by omega⟩

/-- The outer object describes the labellings that leave each of the given sets. -/
def Leaves (L : Set (Fin n) → Set (Fin n) → Prop) (inVars outVars : Fin n → ℤ)
    (solver : IpasirSolver) (Ns : Set (Set (Fin n))) : Prop :=
  solver.Describes (labels inVars outVars) fun b => L b.1 b.2 ∧ ∀ N ∈ Ns, ¬ b.1 ∪ b.2 ⊆ N

def openTargets (targets Ns : Set (Set (Fin n))) : Set (Set (Fin n)) :=
  {T ∈ targets | ∀ N ∈ Ns, ¬ T ⊆ N}

theorem openTargets_insert {targets Ns : Set (Set (Fin n))} {N : Set (Fin n)} (hN : N ∈ targets)
    (hopen : ∀ N' ∈ Ns, ¬ N ⊆ N') :
    (openTargets targets (insert N Ns)).ncard < (openTargets targets Ns).ncard := by
  apply Set.ncard_lt_ncard _ (Set.toFinite _)
  refine (Set.ssubset_iff_of_subset ?_).2 ⟨N, ⟨hN, hopen⟩, ?_⟩
  · rintro T ⟨hT, hnot⟩
    exact ⟨hT, fun N' hN' => hnot N' (.inr hN')⟩
  · rintro ⟨-, hnot⟩
    exact hnot N (.inl rfl) subset_rfl

theorem Leaves.leave {targets Ns : Set (Set (Fin n))} {solver : IpasirSolver}
    (h : Leaves L inVars outVars solver Ns) {τ : Assignment} {N : RaSet n}
    (hτ : ∀ N' ∈ Ns, ¬ (labels inVars outVars τ).1 ∪ (labels inVars outVars τ).2 ⊆ N')
    (hfirst : (labels inVars outVars τ).1 ∪ (labels inVars outVars τ).2 ⊆ N.toSet)
    (hN : N.toSet ∈ targets) {solver' : IpasirSolver}
    (hsolver' : solver' = (solver.satisfied τ.model).push
      (((List.finRange n).filter fun i : Fin n => !N.contains i).flatMap
        (pairClause inVars outVars))) :
    ∃ Ns', Leaves L inVars outVars solver' Ns' ∧
      (openTargets targets Ns').ncard < (openTargets targets Ns).ncard := by
  subst hsolver'
  have hpush := (h.satisfied τ.model).push
    (P := fun b => ¬ b.1 ∪ b.2 ⊆ N.toSet) fun υ => satisfies_leave N
  have hnext := hpush.congr
    (P := fun b => L b.1 b.2 ∧ ∀ N' ∈ insert N.toSet Ns, ¬ b.1 ∪ b.2 ⊆ N') fun b => by
      rw [Set.forall_mem_insert]
      tauto
  exact ⟨insert N.toSet Ns, hnext,
    openTargets_insert hN fun N' hN' hsub => hτ N' hN' (hfirst.trans hsub)⟩

theorem rangeOuter_searches (ω : TotalOracle) (hv : LabelVars inVars outVars)
    (hc : task.Correct aaf grounded L Ext) (hcount : task.Counted aaf L) {solver : IpasirSolver}
    {Ns : Set (Set (Fin n))} (h : Leaves L inVars outVars solver Ns) (w : World) :
    Total (rangeOuter ω.answer task aaf grounded arg doPrint inVars outVars solver) (LoopStep.post
      (fun solver' w' => (∃ Ns', Leaves L inVars outVars solver' Ns' ∧
          (openTargets (aaf.framework.nearlyLargest (task.Candidate arg L) arg) Ns').ncard <
            (openTargets (aaf.framework.nearlyLargest (task.Candidate arg L) arg) Ns).ncard) ∧
        w'.calls ≤ w.calls + (2 * n + 4))
      fun _ w' => True ∧ w'.calls ≤ w.calls + (2 * n + 4)) w := by
  rw [rangeOuter, satAssume_of_closed h.closed, pure_bind]
  apply Total.bind
  apply h.total_search ω [task.literal arg inVars] (A := fun b => task.Meets arg b.1)
    (task.lit_literal hv)
  · intro τ w₁ hτ hmeets hw₁
    dsimp only
    rw [if_neg (by decide), rangeStart_of_sat hv rfl, pure_bind]
    obtain ⟨cs, henc⟩ := hc.encodes hv
    have hgrown := grownFrom_grown hv τ (isLabelled τ.model inVars outVars)
      ⟨(task.encode satInit inVars outVars aaf grounded).2, RaSet.initEmpty n,
        RaSet.initEmpty n⟩ (henc.describes hv) (fun i => RaSet.mem_initEmpty)
    obtain ⟨R₁, hstart⟩ := RangeInv.start hτ.1 hmeets hgrown
      (fun i => RaSet.mem_initEmpty) fun i => isLabelled_iff hv
    apply Total.bind
    apply (rangeLoop_searches ω hv hc hcount hstart
      (fun i hi => .inr (hstart.first_subset hi)) w₁).mono
    rintro ⟨_ | r, solver'⟩ w₂ ⟨hleaves, hw₂⟩
    · obtain ⟨N, hfirst, hN, hsolver'⟩ := hleaves rfl
      exact total_pure.2 ⟨h.leave hτ.2 hfirst hN hsolver', by omega⟩
    · dsimp only
      exact total_pure.2 ⟨trivial, by omega⟩
  · intro w₁ _ hw₁
    dsimp only
    rw [if_pos rfl]
    apply Total.bind
    apply (report_searches (c := 0) fun w' => total_pure.2 le_rfl).mono
    intro _ w₂ hw₂
    exact total_pure.2 ⟨trivial, by omega⟩

/-- At most two rounds for each largest range, and one more. -/
theorem rangeOuterLoop_searches (ω : TotalOracle) (hv : LabelVars inVars outVars)
    (hc : task.Correct aaf grounded L Ext) (hcount : task.Counted aaf L) {solver : IpasirSolver}
    (h : Leaves L inVars outVars solver ∅) (w : World) :
    Total (Prog.loop (rangeOuter ω.answer task aaf grounded arg doPrint inVars outVars) solver)
      (fun _ w' => w'.calls ≤ w.calls + (2 * n + 4) *
        (2 * (aaf.framework.largestRanges (task.Candidate arg L)).ncard + 1)) w := by
  have hloop : Total
      (Prog.loop (rangeOuter ω.answer task aaf grounded arg doPrint inVars outVars) solver)
      (fun _ w' => True ∧ w'.calls ≤ w.calls + ((2 * n + 4) *
        (openTargets (aaf.framework.nearlyLargest (task.Candidate arg L) arg) ∅).ncard +
          (2 * n + 4))) w := by
    apply Total.loop_charged (fun Ns solver _ => Leaves L inVars outVars solver Ns)
      (fun Ns => (openTargets (aaf.framework.nearlyLargest (task.Candidate arg L) arg) Ns).ncard)
      _ h
    intro Ns solver' w' h'
    exact rangeOuter_searches ω hv hc hcount h' w'
  have htargets : (openTargets (aaf.framework.nearlyLargest (task.Candidate arg L) arg) ∅).ncard ≤
      2 * (aaf.framework.largestRanges (task.Candidate arg L)).ncard :=
    (Set.ncard_le_ncard (fun T hT => hT.1) (Set.toFinite _)).trans
      Framework.ncard_nearlyLargest_le
  apply hloop.mono
  rintro _ w' ⟨-, hw'⟩
  rw [← Nat.mul_succ] at hw'
  exact hw'.trans (Nat.add_le_add_left
    (Nat.mul_le_mul_left _ (Nat.add_le_add_right htargets 1)) _)

theorem rangeQuery_searches (ω : TotalOracle) (hc : task.Correct aaf grounded L Ext)
    (hcount : task.Counted aaf L) (w : World) :
    Total (rangeQuery ω.answer task aaf grounded arg doPrint) (fun _ w' => w'.calls ≤ w.calls +
      (2 * n + 4) *
        (2 * (aaf.framework.largestRanges (task.Candidate arg L)).ncard + 1)) w := by
  have hv := labelVars_numberPairs n Int.one_pos
  obtain ⟨cs, henc⟩ := hc.encodes hv
  have hfree : ∀ (r : Bool) {witness : Prog World Unit},
      (∀ w', Total witness (fun _ w'' => w''.calls ≤ w'.calls + 0) w') →
      Total (do report doPrint r witness; pure r) (fun _ w' => w'.calls ≤ w.calls +
        (2 * n + 4) *
          (2 * (aaf.framework.largestRanges (task.Candidate arg L)).ncard + 1)) w := by
    intro r witness hwitness
    apply Total.bind
    apply (report_searches hwitness).mono
    intro _ w₁ hw₁
    exact total_pure.2 (hw₁.trans (Nat.add_le_add_left (Nat.zero_le _) _))
  rw [rangeQuery]
  dsimp only
  split_ifs
  · exact hfree true fun w' => total_atomic.2 le_rfl
  · exact hfree true fun w' => total_pure.2 le_rfl
  · exact hfree false fun w' => total_atomic.2 le_rfl
  · exact rangeOuterLoop_searches ω hv hc hcount ((henc.describes hv).congr fun b => by simp) w

end Range

section Tasks
variable {aaf : AAF n}

theorem costs_growBuffered (inVars outVars : Fin n → ℤ) (arg : Fin n) (st : RangeState n) :
    Costs World.calls 0 (growBuffered inVars outVars arg st) := by
  apply Costs.bind_free _ fun _ => costs_pure _
  apply costs_foldlM
  intro vars i
  apply (costs_satEitherPos _ _).bind_free
  intro isLabelled
  exact (costs_satPos _).bind_free fun _ => costs_pure _

theorem costs_growInPlace (inVars outVars : Fin n → ℤ) (arg : Fin n) (st : RangeState n) :
    Costs World.calls 0 (growInPlace inVars outVars arg st) := by
  apply costs_foldlM
  intro p i
  apply (costs_satEitherPos _ _).bind_free
  intro isLabelled
  apply Costs.ite _ (costs_pure _)
  exact (costs_satPos _).bind_free fun _ => costs_pure _

theorem dcsst_counted : (dcsst n).Counted aaf aaf.framework.AdmissibleLabelling :=
  ⟨fun h => h.admissible.labelling h.grounded_in, costs_growBuffered⟩

theorem dssst_counted : (dssst n).Counted aaf aaf.framework.AdmissibleLabelling :=
  ⟨fun h => h.admissible.labelling h.grounded_in, costs_growBuffered⟩

theorem dcstg_counted : (dcstg n).Counted aaf aaf.framework.ConflictFreeLabelling :=
  ⟨fun h => h.conflictFree.labelling, costs_growInPlace⟩

theorem dsstg_counted : (dsstg n).Counted aaf aaf.framework.ConflictFreeLabelling :=
  ⟨fun h => h.conflictFree.labelling, costs_growInPlace⟩

end Tasks

end TaasFudge
