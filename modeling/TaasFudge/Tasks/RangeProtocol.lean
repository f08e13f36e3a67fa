import TaasFudge.Tasks.RangeCorrectness
import TaasFudge.Tasks.Respecting

/-! # The range tasks and the call protocol

The growth of SST reads all values before the object is changed. The growth of STG
reads from the object that is being changed, which is allowed only as long as no
argument becomes labelled, that is, when the inner object has no model at all.
-/

namespace TaasFudge

open Dimacs Prog

variable {n : ℕ}

section Respecting
variable {ω : SatOracle} {task : RangeTask n} {aaf : AAF n} {grounded : Labeling} {arg : Fin n}
  {doPrint : Bool} {inVars outVars : Fin n → ℤ} {Outer Inner : IpasirSolver → Prop}

/-- Properties of the two objects that keep a range task within the protocol. -/
structure RangeTask.Safe (task : RangeTask n) (aaf : AAF n) (grounded : Labeling) (arg : Fin n)
    (inVars outVars : Fin n → ℤ) (Outer Inner : IpasirSolver → Prop) : Prop where
  outer_closed : ∀ {s}, Outer s → s.openClause = []
  inner_closed : ∀ {s}, Inner s → s.openClause = []
  encode : Outer (task.encode satInit inVars outVars aaf grounded).2
  start : ∀ {s m}, Outer s → s.Finds [task.literal arg inVars] m →
    Inner (closeGrowth (startedBy inVars outVars m
      ⟨(task.encode satInit inVars outVars aaf grounded).2, RaSet.initEmpty n,
        RaSet.initEmpty n⟩)).inner
  grow : ∀ {st : RangeState n} {m}, Inner st.inner → st.inner.Finds [task.literal arg inVars] m →
    Respects (task.grow inVars outVars arg
      ⟨st.inner.satisfied m, st.notUndec, st.inArg.reset⟩) fun p => Inner (closeGrowth p).inner
  leave : ∀ {s m} c, Outer s → Outer ((s.satisfied m).push c)

theorem respects_rangeInner (hv : LabelVars inVars outVars)
    (hs : task.Safe aaf grounded arg inVars outVars Outer Inner) (solver : IpasirSolver)
    {st : RangeState n} (hst : Inner st.inner) :
    Respects (rangeInner ω.answer task aaf arg doPrint inVars outVars solver st)
      (LoopStep.holds (fun st => Inner st.inner)
        fun r => r.1 = none → ∃ c, r.2 = solver.push c) := by
  rw [rangeInner, satAssume_of_closed (hs.inner_closed hst), pure_bind]
  refine (respects_search ω (hs.inner_closed hst) [task.literal arg inVars]).bind ?_
  rintro _ (⟨m, hm, rfl⟩ | rfl)
  · exact (hs.grow hst hm).bind fun p hp => Keeps.pure hp
  · have hrefuted : st.inner.refuted.openClause = [] := (hs.inner_closed hst :)
    dsimp only
    rw [if_pos rfl]
    refine (respects_satSolve ω hrefuted).bind fun r _ => ?_
    split_ifs
    · apply (respects_report (respects_printf _)).bind
      intro _ _
      exact Keeps.pure fun h => by simp at h
    · rw [foldl_leave hv]
      exact Keeps.pure fun _ => ⟨_, rfl⟩

theorem respects_rangeOuter (hv : LabelVars inVars outVars)
    (hs : task.Safe aaf grounded arg inVars outVars Outer Inner) {solver : IpasirSolver}
    (hsolver : Outer solver) :
    Respects (rangeOuter ω.answer task aaf grounded arg doPrint inVars outVars solver)
      (LoopStep.holds Outer fun _ => True) := by
  rw [rangeOuter, satAssume_of_closed (hs.outer_closed hsolver), pure_bind]
  refine (respects_search ω (hs.outer_closed hsolver) [task.literal arg inVars]).bind ?_
  rintro _ (⟨m, hm, rfl⟩ | rfl)
  · dsimp only
    rw [if_neg (by decide), rangeStart_of_sat hv rfl, pure_bind]
    refine (Keeps.loop (fun st : RangeState n => Inner st.inner)
      (fun st hst => respects_rangeInner hv hs _ hst) (hs.start hsolver hm)).bind ?_
    rintro ⟨_ | r, solver'⟩ hr
    · obtain ⟨c, rfl⟩ := hr rfl
      exact Keeps.pure (hs.leave c hsolver)
    · exact Keeps.pure trivial
  · exact (respects_answer _ _).bind fun _ _ => Keeps.pure trivial

theorem respects_rangeQuery
    (hs : ∀ {inVars outVars : Fin n → ℤ}, LabelVars inVars outVars →
      (task.encode satInit inVars outVars aaf grounded).1 ≠ true →
      ∃ Outer Inner, task.Safe aaf grounded arg inVars outVars Outer Inner) :
    Respects (rangeQuery ω.answer task aaf grounded arg doPrint) fun _ => True := by
  have hv := labelVars_numberPairs n Int.one_pos
  rw [rangeQuery]
  dsimp only
  split_ifs with hall
  · exact (respects_report (respects_printf _)).bind fun _ _ => Keeps.pure trivial
  · exact (respects_answer _ _).bind fun _ _ => Keeps.pure trivial
  · exact (respects_report (respects_printf _)).bind fun _ _ => Keeps.pure trivial
  · obtain ⟨Outer, Inner, hs⟩ := hs hv hall
    exact Keeps.loop Outer (fun s h => respects_rangeOuter hv hs h) hs.encode

end Respecting

section SemiStable
variable (ω : SatOracle) (aaf : AAF n) (grounded : Labeling) (arg : Fin n) (doPrint : Bool)

/-- With buffered growth it is enough that the objects are closed. -/
theorem safe_of_buffered {task : RangeTask n} {inVars outVars : Fin n → ℤ}
    (hv : LabelVars inVars outVars)
    (hencode : (task.encode satInit inVars outVars aaf grounded).2.openClause = [])
    (hgrow : task.grow = growBuffered) :
    task.Safe aaf grounded arg inVars outVars (fun s => s.openClause = [])
      fun s => s.openClause = [] where
  outer_closed h := h
  inner_closed h := h
  encode := hencode
  start _ _ := satAddClause_openClause _ _
  grow _ _ := by
    rw [hgrow, growBuffered_of_sat hv rfl]
    exact Keeps.pure (satAddClause_openClause _ _)
  leave c _ := IpasirSolver.push_openClause c

theorem respects_solveDcsst :
    Respects (solveDcsst ω.answer aaf grounded arg doPrint) fun _ => True :=
  respects_rangeQuery fun hv _ =>
    ⟨_, _, safe_of_buffered aaf grounded arg hv (addAdmTestClauses_openClause hv rfl) rfl⟩

theorem respects_solveDssst :
    Respects (solveDssst ω.answer aaf grounded arg doPrint) fun _ => True :=
  respects_rangeQuery fun hv _ =>
    ⟨_, _, safe_of_buffered aaf grounded arg hv (addAdmTestClauses_openClause hv rfl) rfl⟩

end SemiStable

section Stage
variable {aaf : AAF n} {grounded : Labeling} {arg : Fin n} {task : RangeTask n}
  {inVars outVars : Fin n → ℤ} {L : Set (Fin n) → Set (Fin n) → Prop} {cs : List Clause}

theorem isIn_iff_of_forall {m : PartialModel} {vars : Fin n → ℤ} {S : Set (Fin n)}
    (hpos : ∀ i, 0 < vars i) (h : ∀ τ, m.Completion τ → selected τ vars = S) (i : Fin n) :
    isIn m vars i = true ↔ i ∈ S := by
  rw [isIn, decide_eq_true_iff]
  constructor
  · intro hi
    rw [← h _ m.completion_getD]
    exact m.completion_getD.lit_of_value_pos (hpos i) hi
  · intro hi
    refine PartialModel.value_pos_of_forall (hpos i) fun τ hτ => ?_
    rw [← h τ hτ] at hi
    exact hi

/-- The inner object asks for the labellings that have all arguments labelled by the model found
and one more. -/
theorem startedBy_describes (hv : LabelVars inVars outVars)
    (henc : Encodes grounded inVars outVars L
      (fun s => task.encode s inVars outVars aaf grounded) cs)
    {m : PartialModel} {T : Set (Fin n)} (hm : ∀ i, isLabelled m inVars outVars i = true ↔ i ∈ T) :
    (closeGrowth (startedBy inVars outVars m
      ⟨(task.encode satInit inVars outVars aaf grounded).2, RaSet.initEmpty n,
        RaSet.initEmpty n⟩)).inner.Describes (labels inVars outVars) fun b =>
      (L b.1 b.2 ∧ T ⊆ b.1 ∪ b.2) ∧ ¬ b.1 ∪ b.2 ⊆ T := by
  have hgrown : (closeGrowth (startedBy inVars outVars m
      ⟨(task.encode satInit inVars outVars aaf grounded).2, RaSet.initEmpty n,
        RaSet.initEmpty n⟩)).inner.Describes (labels inVars outVars) _ :=
    grown_describes hv hm (henc.describes hv)
  apply hgrown.congr
  intro b
  simp only [hm]
  rfl

/-- When all labellings as sought are the same, the inner object never finds a model. -/
theorem safe_of_unique (hv : LabelVars inVars outVars)
    (henc : Encodes grounded inVars outVars L
      (fun s => task.encode s inVars outVars aaf grounded) cs)
    {S O : Set (Fin n)} (huniq : ∀ T U, L T U → task.Meets arg T → T = S ∧ U = O) :
    task.Safe aaf grounded arg inVars outVars
      (fun s => s.Entails (labels inVars outVars) fun b => L b.1 b.2)
      fun s => s.Entails (labels inVars outVars) fun b => ¬ task.Meets arg b.1 where
  outer_closed h := h.closed
  inner_closed h := h.closed
  encode := (henc.describes hv).entails
  start {s m} h hm := by
    have hmodel : ∀ τ, m.Completion τ → selected τ inVars = S ∧ selected τ outVars = O :=
      fun τ hτ => huniq _ _ (h.sound τ (hm τ hτ).1) ((task.lit_literal hv τ).1 (hm τ hτ).2)
    have hlabelled : ∀ i, isLabelled m inVars outVars i = true ↔ i ∈ S ∪ O := fun i => by
      rw [isLabelled, Bool.or_eq_true,
        isIn_iff_of_forall hv.in_pos (fun τ hτ => (hmodel τ hτ).1),
        isIn_iff_of_forall hv.out_pos (fun τ hτ => (hmodel τ hτ).2)]
      rfl
    have hdesc := startedBy_describes hv henc hlabelled
    refine ⟨hdesc.closed, fun τ hτ hmeets => (hdesc.sound τ hτ).2 ?_⟩
    obtain ⟨h₁, h₂⟩ := huniq _ _ (hdesc.sound τ hτ).1.1 hmeets
    rw [h₁, h₂]
  grow {st m} h hm :=
    absurd ((task.lit_literal hv _).1 (hm _ m.completion_getD).2)
      (h.sound _ (hm _ m.completion_getD).1)
  leave c h := (h.satisfied _).push c

end Stage

section Breaking
variable {aaf : AAF n} {grounded : Labeling} {arg : Fin n} {doPrint : Bool} {task : RangeTask n}
  {inVars outVars : Fin n → ℤ} {cs : List Clause} {k : ℕ}

theorem keeps_broken_growInPlaceAt (p : RangeState n × List ℤ) (i : Fin n) :
    (growInPlaceAt inVars outVars arg p i).Keeps Broken fun _ => True := by
  refine ((keeps_broken_satPos _ _).orM (keeps_broken_satPos _ _)).bind fun isLabelled _ => ?_
  cases isLabelled with
  | false => exact Keeps.pure trivial
  | true => exact (keeps_broken_satPos _ _).bind fun _ _ => Keeps.pure trivial

theorem within_satEitherPos {J : World → Prop} {Q : Bool → World → Prop} {w : World}
    (solver : IpasirSolver) (v₁ v₂ : ℤ)
    (h : ∀ w', Q (decide (0 < solver.model.value v₁) || decide (0 < solver.model.value v₂)) w') :
    Within k J (satEitherPos solver v₁ v₂) Q w := by
  rw [satEitherPos, orM, within_bind, within_satPos]
  rcases hv₁ : decide (0 < solver.model.value v₁) with _ | _ <;> rw [hv₁] at h
  · exact (within_satPos _ _).2 (h _)
  · exact h _

/-- The value of a newly labelled argument is read after the object has been changed. -/
theorem within_growInPlaceAt_new {p : RangeState n × List ℤ} {i : Fin n} {w : World}
    (hl : isLabelled p.1.inner.model inVars outVars i = true) (hnew : p.1.notUndec.contains i = false)
    (hne : arg ≠ i) :
    Within k Broken (growInPlaceAt inVars outVars arg p i) (fun _ => Broken) w := by
  rw [growInPlaceAt, within_bind]
  refine within_satEitherPos _ _ _ fun w' => ?_
  rw [isLabelled, isIn, isIn] at hl
  rw [hl, if_pos rfl, within_bind, within_satPos, hnew, decide_eq_true hne]
  exact broken_expect _ (.inr rfl)

/-- Another argument's part of the growth changes neither the last model nor what is known
about `b`. -/
theorem within_growInPlaceAt_other (hv : LabelVars inVars outVars) {J : World → Prop}
    {p : RangeState n × List ℤ} {i b : Fin n} (hib : b ≠ i) {w : World} :
    Within k J (growInPlaceAt inVars outVars arg p i) (fun p' _ =>
      p'.1.inner.model = p.1.inner.model ∧
        p'.1.notUndec.contains b = p.1.notUndec.contains b) w := by
  rw [growInPlaceAt, within_bind]
  refine within_satEitherPos _ _ _ fun w' => ?_
  split_ifs with hl hnew
  · rw [within_bind, within_satPos, within_pure]
    simp only [takeIn_inner, takeIn_notUndec, RangeState.keepLabelled,
      satAddClause2_eq (hv.in_ne i) (hv.out_ne i)]
    refine ⟨rfl, ?_⟩
    rw [Bool.eq_iff_iff]
    simp [hib]
  · rw [within_bind, within_satPos, within_pure]
    simp
  · exact ⟨rfl, rfl⟩

/-- The growth by a model that labels a new argument other than the one of the query. -/
theorem within_growInPlace (hv : LabelVars inVars outVars) (st : RangeState n) {b : Fin n}
    (hl : isLabelled st.inner.model inVars outVars b = true)
    (hnew : st.notUndec.contains b = false) (hne : arg ≠ b) (w : World) :
    Within k Broken (growInPlace inVars outVars arg st) (fun _ => Broken) w := by
  have key : ∀ (xs : List (Fin n)) (p : RangeState n × List ℤ) (w : World), b ∈ xs →
      p.1.inner.model = st.inner.model → p.1.notUndec.contains b = false →
      Within k Broken (xs.foldlM (growInPlaceAt inVars outVars arg) p) (fun _ => Broken) w := by
    intro xs
    induction xs with
    | nil => exact fun p w hb => absurd hb List.not_mem_nil
    | cons x xs ih =>
      intro p w hb hm hp
      rw [List.foldlM_cons, within_bind]
      by_cases hxb : b = x
      · subst hxb
        refine (within_growInPlaceAt_new (hm ▸ hl) hp hne).mono fun p' w' hw' => ?_
        exact ((Keeps.foldlM (fun _ => True) xs (fun p i _ => keeps_broken_growInPlaceAt p i)
          trivial) k w' hw').mono fun _ _ h => h.1
      · refine (within_growInPlaceAt_other hv hxb).mono fun p' w' h => ?_
        exact ih p' w' ((List.mem_cons.1 hb).resolve_left hxb) (h.1.trans hm) (h.2.trans hp)
  exact key _ (st, []) w (List.mem_finRange b) rfl hnew

/-- The first round of the inner loop, when its search finds a model that labels a new argument
other than the one of the query. -/
theorem within_rangeInner (hv : LabelVars inVars outVars) {ω : Oracle}
    (hgrow : task.grow = growInPlace) (solver : IpasirSolver) {st : RangeState n}
    (hclosed : st.inner.openClause = []) {m : PartialModel} {w : World}
    (hω : ω w.calls ⟨st.inner.clauses, st.inner.assumptions ++ [task.literal arg inVars]⟩ = .sat m)
    {b : Fin n} (hl : isLabelled m inVars outVars b = true)
    (hnew : st.notUndec.contains b = false) (hne : arg ≠ b) :
    Within k Broken (rangeInner ω task aaf arg doPrint inVars outVars solver st)
      (LoopStep.post (fun _ => Broken) fun _ _ => False) w := by
  rw [rangeInner, satAssume_of_closed hclosed, pure_bind, within_bind]
  refine (within_satSolve [task.literal arg inVars] hω).2 ?_
  dsimp only
  rw [if_neg (by decide), within_bind, hgrow]
  exact (within_growInPlace hv ⟨st.inner.satisfied m, st.notUndec, st.inArg.reset⟩ hl hnew hne
    _).mono fun _ _ h => h

/-- The inner loop starts with a labelling that the outer object has found; its first round then
finds one that labels a new argument other than the one of the query. -/
theorem within_rangeOuter (hv : LabelVars inVars outVars) {ω : Oracle}
    (hgrow : task.grow = growInPlace) {solver : IpasirSolver} (hsolver : solver.openClause = [])
    {m₀ m₁ : PartialModel} {w : World}
    (hω₀ : ω w.calls ⟨solver.clauses, solver.assumptions ++ [task.literal arg inVars]⟩ = .sat m₀)
    {start : RangeState n}
    (hstart : closeGrowth (startedBy inVars outVars m₀
      ⟨(task.encode satInit inVars outVars aaf grounded).2, RaSet.initEmpty n,
        RaSet.initEmpty n⟩) = start)
    (hclosed : start.inner.openClause = [])
    (hω₁ : ω (w.calls + 1) ⟨start.inner.clauses,
      start.inner.assumptions ++ [task.literal arg inVars]⟩ = .sat m₁)
    {b : Fin n} (hl : isLabelled m₁ inVars outVars b = true)
    (hnew : start.notUndec.contains b = false) (hne : arg ≠ b) :
    Within 1 Broken (rangeOuter ω task aaf grounded arg doPrint inVars outVars solver)
      (LoopStep.post (fun _ => Broken) fun _ => Broken) w := by
  rw [rangeOuter, satAssume_of_closed hsolver, pure_bind, within_bind]
  apply (within_satSolve [task.literal arg inVars] hω₀).2
  dsimp only
  rw [if_neg (by decide), rangeStart_of_sat hv rfl, pure_bind, within_bind]
  change Within 1 Broken (Prog.loop _ (closeGrowth (startedBy inVars outVars m₀ _))) _ _
  rw [hstart]
  apply within_loop_one.2
  apply (within_rangeInner hv hgrow _ hclosed hω₁ hl hnew hne).mono
  rintro (st | r) w' h
  · exact h
  · exact h.elim

/-- Two conflict-free sets as sought, the second labelling all arguments of the first and another
one: a solver may find the first and then the second. -/
theorem exists_within_rangeOuter (hv : LabelVars inVars outVars)
    (henc : Encodes grounded inVars outVars aaf.framework.ConflictFreeLabelling
      (fun s => task.encode s inVars outVars aaf grounded) cs)
    (hgrow : task.grow = growInPlace) {S T : Set (Fin n)}
    (hS : aaf.framework.ConflictFree S) (hT : aaf.framework.ConflictFree T)
    (hSmeets : task.Meets arg S) (hTmeets : task.Meets arg T)
    (hsub : aaf.framework.range S ⊆ aaf.framework.range T) {b : Fin n}
    (hbT : b ∈ aaf.framework.range T) (hbS : b ∉ aaf.framework.range S) (hne : arg ≠ b) :
    ∃ ω : TotalOracle, Within 1 Broken
      (rangeOuter ω.answer task aaf grounded arg doPrint inVars outVars
        (task.encode satInit inVars outVars aaf grounded).2)
      (LoopStep.post (fun _ => Broken) fun _ => Broken) ⟨0, "", true⟩ := by
  have hdesc := henc.describes hv
  have hlabelled : ∀ {τ : Assignment} {V : Set (Fin n)},
      labels inVars outVars τ = (V, aaf.framework.attackedBy V) → ∀ i,
        isLabelled τ.model inVars outVars i = true ↔ i ∈ aaf.framework.range V := by
    intro τ V hτ i
    rw [isLabelled_iff hv, ← labels_fst inVars outVars, ← labels_snd inVars outVars, hτ]
    rfl
  obtain ⟨τ, hτ, hτS⟩ := hdesc.complete (S, aaf.framework.attackedBy S) hS.labelling
  have hstart := startedBy_describes hv henc (hlabelled hτS)
  obtain ⟨υ, hυ, hυT⟩ := hstart.complete (T, aaf.framework.attackedBy T)
    ⟨⟨hT.labelling, hsub⟩, fun h => hbS (h hbT)⟩
  obtain ⟨ω, hω₀, hω₁⟩ := TotalOracle.exists_two_answers
    (hdesc.satisfiedBy hτ ((task.lit_literal hv τ).2 (by rw [hτS]; exact hSmeets)))
    (hstart.satisfiedBy hυ ((task.lit_literal hv υ).2 (by rw [hυT]; exact hTmeets)))
  have hnew : (closeGrowth (startedBy inVars outVars τ.model
      ⟨(task.encode satInit inVars outVars aaf grounded).2, RaSet.initEmpty n,
        RaSet.initEmpty n⟩)).notUndec.contains b = false := by
    rw [RaSet.contains_eq_false_iff]
    dsimp only [closeGrowth, startedBy]
    rw [mem_grown_notUndec, hlabelled hτS, or_iff_right RaSet.mem_initEmpty]
    exact hbS
  exact ⟨ω, within_rangeOuter hv hgrow hdesc.closed hω₀ rfl hstart.closed hω₁
    ((hlabelled hυT b).2 hbT) hnew hne⟩

/-- A run that reads a value of the inner object after changing it, in the first rounds of the
loops. -/
theorem rangeQuery_broken (henc : task.encode = addCfTestClauses)
    (hgrow : task.grow = growInPlace) (hg : Grounds aaf grounded)
    (htotal : ¬ aaf.framework.GroundedTotal) {S T : Set (Fin n)}
    (hS : aaf.framework.ConflictFree S) (hT : aaf.framework.ConflictFree T)
    (hSmeets : task.Meets arg S) (hTmeets : task.Meets arg T)
    (hsub : aaf.framework.range S ⊆ aaf.framework.range T) {b : Fin n}
    (hbT : b ∈ aaf.framework.range T) (hbS : b ∉ aaf.framework.range S) (hne : arg ≠ b) :
    ∃ ω : TotalOracle,
      Broken (rangeQuery ω.answer task aaf grounded arg doPrint 1 ⟨0, "", true⟩).2 := by
  have hv := labelVars_numberPairs n Int.one_pos
  have hcf := @addCfTestClauses_encodes n _ _ aaf grounded hv
  rw [← henc] at hcf
  have hall : ¬ (task.encode satInit (numberPairs n 1).1 (numberPairs n 1).2.1 aaf grounded).1 =
      true := by
    rw [hcf.eq, allGrounded_iff hg]
    exact htotal
  obtain ⟨ω, hω⟩ := @exists_within_rangeOuter n aaf grounded arg doPrint task _ _ _ hv hcf hgrow
    S T hS hT hSmeets hTmeets hsub b hbT hbS hne
  refine ⟨ω, Within.state ?_⟩
  rw [rangeQuery]
  dsimp only
  rw [if_neg hall]
  exact within_loop_one.2 hω

end Breaking

section Exact
variable {aaf : AAF n} {grounded : Labeling} {arg : Fin n} {doPrint : Bool} {task : RangeTask n}

/-- With in-place growth the protocol is respected when the grounded labeling is total, and when
there is only one conflict-free set as sought. -/
theorem respects_rangeQuery_of_unique {ω : SatOracle} (henc : task.encode = addCfTestClauses)
    (hg : Grounds aaf grounded) {S : Set (Fin n)} (h : aaf.framework.GroundedTotal ∨
      ∀ T, aaf.framework.ConflictFree T → task.Meets arg T → T = S) :
    Respects (rangeQuery ω.answer task aaf grounded arg doPrint) fun _ => True := by
  refine respects_rangeQuery fun {inVars outVars} hv hall => ?_
  have hcf : Encodes grounded inVars outVars aaf.framework.ConflictFreeLabelling
    (fun s => addCfTestClauses s inVars outVars aaf grounded) _ := addCfTestClauses_encodes hv
  rw [← henc] at hcf
  rw [hcf.eq, Ne, allGrounded_iff hg] at hall
  have huniq := h.resolve_left hall
  refine ⟨_, _, safe_of_unique hv hcf (S := S) (O := aaf.framework.attackedBy S) ?_⟩
  intro T U hTU hm
  have hT := huniq T hTU.conflictFree hm
  exact ⟨hT, by rw [hTU.out_eq, hT]⟩

end Exact

end TaasFudge
