import TaasFudge.Tasks.Climb
import TaasFudge.Tasks.RangeCorrectness
import TaasFudge.Tasks.SeRange

/-! # Correctness of SE-SST and SE-STG

The loop climbs in range. Which set it ends with depends on what the models leave
open; without open variables it is an extension of maximal range.
-/

namespace TaasFudge

open Dimacs Framework

variable {n : ℕ}

section Reading
variable {inVars outVars : Fin n → ℤ} {solver : IpasirSolver}

/-- Whether the model says that the argument is neither IN nor OUT. -/
def isUnlabelled (m : PartialModel) (inVars outVars : Fin n → ℤ) (i : Fin n) : Bool :=
  decide (m.value (inVars i) < 0) && decide (m.value (outVars i) < 0)

def seRangeReadBy (inVars outVars : Fin n → ℤ) (m : PartialModel) (xs : List (Fin n))
    (p : SeRangeState n × List ℤ) : SeRangeState n × List ℤ :=
  ({ p.1 with
      temp := (xs.filter fun i =>
        !p.1.notUndec.contains i && isLabelled m inVars outVars i).foldl RaSet.add p.1.temp
      inArg := (xs.filter (isIn m inVars)).foldl RaSet.add p.1.inArg },
    p.2 ++ (xs.filter (isUnlabelled m inVars outVars)).flatMap (pairClause inVars outVars))

theorem isUnlabelled_of_isLabelled {m : PartialModel} {i : Fin n}
    (h : isLabelled m inVars outVars i = true) : isUnlabelled m inVars outVars i = false := by
  rw [Bool.eq_false_iff]
  intro hu
  simp only [isUnlabelled, isLabelled, isIn, Bool.and_eq_true, Bool.or_eq_true,
    decide_eq_true_eq] at hu h
  omega

def seRangeReadAt (inVars outVars : Fin n → ℤ) (m : PartialModel)
    (p : SeRangeState n × List ℤ) (i : Fin n) : SeRangeState n × List ℤ :=
  let p :=
    if !p.1.notUndec.contains i && isLabelled m inVars outVars i
    then ({ p.1 with temp := p.1.temp.add i }, p.2)
    else if isUnlabelled m inVars outVars i then (p.1, p.2 ++ [inVars i, outVars i]) else p
  if isIn m inVars i then ({ p.1 with inArg := p.1.inArg.add i }, p.2) else p

theorem foldl_seRangeReadAt (m : PartialModel) (xs : List (Fin n)) (p : SeRangeState n × List ℤ) :
    xs.foldl (seRangeReadAt inVars outVars m) p = seRangeReadBy inVars outVars m xs p := by
  induction xs generalizing p with
  | nil => simp [seRangeReadBy]
  | cons x xs ih =>
    rw [List.foldl_cons, ih]
    cases hl : isLabelled m inVars outVars x with
    | true =>
      have hu := isUnlabelled_of_isLabelled hl
      cases hc : p.1.notUndec.contains x <;> cases hi : isIn m inVars x <;>
        simp [seRangeReadBy, seRangeReadAt, hc, hl, hu, hi]
    | false =>
      cases hu : isUnlabelled m inVars outVars x <;> cases hi : isIn m inVars x <;>
        simp [seRangeReadBy, seRangeReadAt, hl, hu, hi, pairClause]

theorem seRangeRead_of_sat (h : solver.state = .sat) (st : SeRangeState n) :
    seRangeRead inVars outVars solver st =
      pure (seRangeReadBy inVars outVars solver.model (List.finRange n) (st, [])) := by
  have hbody : ∀ (p : SeRangeState n × List ℤ) (i : Fin n), (do
      let new ← pure !p.1.notUndec.contains i <&&> satEitherPos solver (inVars i) (outVars i)
      let p ← if new then pure ({ p.1 with temp := p.1.temp.add i }, p.2)
        else do
          let undec ← satNeg solver (inVars i) <&&> satNeg solver (outVars i)
          pure (if undec then (p.1, p.2 ++ [inVars i, outVars i]) else p)
      let isIn ← satPos solver (inVars i)
      pure (if isIn then ({ p.1 with inArg := p.1.inArg.add i }, p.2) else p) :
        Prog World (SeRangeState n × List ℤ)) =
      pure (seRangeReadAt inVars outVars solver.model p i) := by
    intro p i
    have hunlabelled : (satNeg solver (inVars i) <&&> satNeg solver (outVars i)) =
        pure (isUnlabelled solver.model inVars outVars i) := by
      rw [satNeg_of_sat h, satNeg_of_sat h, andM, pure_bind, isUnlabelled]
      cases decide (solver.model.value (inVars i) < 0) <;> rfl
    have hlabelled : satEitherPos solver (inVars i) (outVars i) =
        pure (isLabelled solver.model inVars outVars i) := satEitherPos_of_sat h _ _
    rw [hunlabelled, hlabelled, satPos_of_sat h, andM, pure_bind, seRangeReadAt]
    cases p.1.notUndec.contains i
    · cases isLabelled solver.model inVars outVars i <;> rfl
    · rfl
  simp only [seRangeRead, hbody, List.foldlM_pure]
  rw [foldl_seRangeReadAt]

end Reading

section Round
variable {L : Set (Fin n) → Set (Fin n) → Prop} {M : PartialModel → Prop}
  {inVars outVars : Fin n → ℤ} {m : PartialModel} {st : SeRangeState n} {D : Set (Fin n)}

theorem foldl_imposePairs (hv : LabelVars inVars outVars) (xs : List (Fin n)) (s : RaSet n)
    (solver : IpasirSolver) :
    xs.foldl (fun (p : RaSet n × IpasirSolver) i =>
      (p.1.add i, satAddClause2 p.2 (inVars i) (outVars i))) (s, solver) =
      (xs.foldl RaSet.add s, solver.pushAll (xs.map (pairClause inVars outVars))) := by
  induction xs generalizing s solver with
  | nil => rfl
  | cons x xs ih => rw [List.foldl_cons, ih, satAddClause2_eq (hv.in_ne x) (hv.out_ne x)]; rfl

def SeRangeState.next (inVars outVars : Fin n → ℤ) (m : PartialModel) (st : SeRangeState n) :
    SeRangeState n :=
  let r := seRangeReadBy inVars outVars m (List.finRange n)
    ({ st with inArg := st.inArg.reset }, [])
  { r.1 with
    solver := ((st.solver.satisfied m).push r.2).pushAll
      (r.1.temp.elementsArr.map (pairClause inVars outVars))
    notUndec := r.1.temp.elementsArr.foldl RaSet.add st.notUndec
    temp := r.1.temp.reset }

structure SeRangeInv (L : Set (Fin n) → Set (Fin n) → Prop) (M : PartialModel → Prop)
    (inVars outVars : Fin n → ℤ) (st : SeRangeState n) (D : Set (Fin n)) : Prop where
  climb : ClimbInv L labelled M inVars outVars st.solver st.notUndec.toSet st.inArg.toSet D
  temp_empty : ∀ i, i ∉ st.temp

theorem mem_certain_union {i : Fin n} : i ∈ certain m inVars ∪ certain m outVars ↔
    isLabelled m inVars outVars i = true := by
  simp [certain, isLabelled, isIn]

theorem satisfies_unlabelled {τ : Assignment} :
    τ.Satisfies (((List.finRange n).filter (isUnlabelled m inVars outVars)).flatMap
      (pairClause inVars outVars)) ↔ ¬ labelled (selected τ inVars) (selected τ outVars) ⊆
        labelled (possible m inVars) (possible m outVars) := by
  rw [Assignment.satisfies_flatMap, Set.not_subset]
  simp [pairClause, labelled, possible, isUnlabelled, and_comm]

theorem SeRangeInv.next (h : SeRangeInv L M inVars outVars st D) (hv : LabelVars inVars outVars)
    (hM : M m) (hm : ∀ τ, m.Completion τ →
      Climbs L labelled st.notUndec.toSet D (labels inVars outVars τ)) :
    SeRangeInv L M inVars outVars (st.next inVars outVars m)
      (labelled (possible m inVars) (possible m outVars)) ∧
    Reached L labelled inVars outVars m (st.next inVars outVars m).notUndec.toSet
      (st.next inVars outVars m).inArg.toSet
      (labelled (possible m inVars) (possible m outVars)) ∧
    st.notUndec.toSet ⊂ (st.next inVars outVars m).notUndec.toSet := by
  have hlow := climbs_lower hv hm
  have htemp : ∀ i, i ∈ (seRangeReadBy inVars outVars m (List.finRange n)
      ({ st with inArg := st.inArg.reset }, [])).1.temp ↔
      i ∉ st.notUndec ∧ i ∈ certain m inVars ∪ certain m outVars := by
    intro i
    rw [seRangeReadBy, RaSet.mem_foldl_add, mem_certain_union]
    simp [h.temp_empty, Bool.eq_false_iff]
  have hcs : ∀ τ : Assignment, (∀ d ∈ (seRangeReadBy inVars outVars m (List.finRange n)
      ({ st with inArg := st.inArg.reset }, [])).1.temp.elementsArr.map (pairClause inVars outVars),
      τ.Satisfies d) ↔ (certain m inVars ∪ certain m outVars) \ st.notUndec.toSet ⊆
        labelled (selected τ inVars) (selected τ outVars) := by
    intro τ
    rw [List.forall_mem_map]
    constructor
    · rintro hτ i ⟨hi, hnot⟩
      simpa [pairClause, labelled] using hτ i ((htemp i).2 ⟨hnot, hi⟩)
    · intro hτ i hi
      obtain ⟨hnot, hlab⟩ := (htemp i).1 hi
      simpa [pairClause, labelled] using hτ ⟨hlab, hnot⟩
  have hkept : (st.next inVars outVars m).notUndec.toSet =
      st.notUndec.toSet ∪ (certain m inVars ∪ certain m outVars) \ st.notUndec.toSet := by
    ext i
    rw [SeRangeState.next, RaSet.mem_toSet, RaSet.mem_foldl_add, ← RaSet.mem_def, htemp]
    by_cases hi : i ∈ st.notUndec <;> simp [hi]
  have hnew : st.notUndec.toSet ∪ (certain m inVars ∪ certain m outVars) \ st.notUndec.toSet =
      labelled (certain m inVars) (certain m outVars) := by
    rw [Set.union_sdiff_self]
    exact Set.union_eq_right.2 hlow.above
  have hheld : (st.next inVars outVars m).inArg.toSet = certain m inVars := by
    ext i
    rw [SeRangeState.next, RaSet.mem_toSet, seRangeReadBy, RaSet.mem_foldl_add]
    simp [isIn, certain]
  have hclimb := h.climb.next hv hM hm labelled_monotone (fun τ => satisfies_unlabelled) hcs hkept
    hnew hheld
  exact ⟨⟨hclimb.1, fun i => RaSet.mem_reset⟩, hclimb.2⟩

/-- A round goes on with the state after a model, or ends with the set held. -/
theorem total_seRangeRound (ω : SatOracle) (hv : LabelVars inVars outVars)
    {R : Set (Fin n) × Set (Fin n) → Prop}
    (h : st.solver.Describes (labels inVars outVars) R) {w : World}
    {Q : LoopStep (SeRangeState n) (RaSet n) → World → Prop}
    (hsat : ∀ m w', ω.answer w.calls st.solver.query = .sat m →
      (∀ τ, m.Completion τ → R (labels inVars outVars τ)) → w'.stdout = w.stdout →
      Q (.again (st.next inVars outVars m)) w')
    (hunsat : ∀ w', (∀ b, ¬ R b) → w'.stdout = w.stdout → Q (.exit st.inArg) w') :
    Prog.Total (seRangeRound ω.answer inVars outVars st) Q w := by
  apply Prog.Total.bind
  apply h.total_satSolve_open ω
  · intro m w' ha hm hw'
    dsimp only
    rw [if_neg (by decide), seRangeRead_of_sat rfl, pure_bind]
    rw [satAddClause_eq, List.take_length, foldl_imposePairs hv, Prog.total_pure]
    · exact hsat m w' ha hm hw'
    · intro l hl
      rw [seRangeReadBy, List.nil_append] at hl
      obtain ⟨i, -, hl⟩ := List.mem_flatMap.1 hl
      exact pairClause_ne hv hl
  · intro w' hno hw'
    dsimp only
    rw [if_pos rfl, Prog.total_pure]
    exact hunsat w' hno hw'

end Round

section Loop
variable {L : Set (Fin n) → Set (Fin n) → Prop} {M : PartialModel → Prop}
  {inVars outVars : Fin n → ℤ} {aaf : AAF n} {grounded : Labeling} {task : RangeTask n}
  {Ext : Set (Fin n) → Prop}

/-- The state before the first search, with the clause for at least one label. -/
def seRangeStart (inVars outVars : Fin n → ℤ) (solver : IpasirSolver) : SeRangeState n :=
  ⟨solver.push ((List.finRange n).flatMap (pairClause inVars outVars)),
    RaSet.initEmpty n, RaSet.initEmpty n, RaSet.initEmpty n⟩

theorem seRangeStart_eq (hv : LabelVars inVars outVars) (solver : IpasirSolver) :
    satAdd ((List.finRange n).foldl (fun solver (i : Fin n) =>
      satAdd (satAdd solver (inVars i)) (outVars i)) solver) 0 =
      (seRangeStart inVars outVars solver).solver := by
  have h := foldl_leave hv solver (RaSet.initEmpty n)
  simpa [seRangeStart, RaSet.contains_eq_false_iff.2 RaSet.mem_initEmpty] using h

theorem satisfies_start {τ : Assignment} :
    τ.Satisfies ((List.finRange n).flatMap (pairClause inVars outVars)) ↔
      ¬ labelled (selected τ inVars) (selected τ outVars) ⊆ ∅ := by
  rw [Assignment.satisfies_flatMap, Set.not_subset]
  simp [pairClause, labelled]

theorem seRangeInv_start {solver : IpasirSolver}
    (h : solver.Describes (labels inVars outVars) fun b => L b.1 b.2) :
    SeRangeInv L M inVars outVars (seRangeStart inVars outVars solver) ∅ := by
  have hempty : (RaSet.initEmpty n).toSet = ∅ := by ext i; simp
  refine ⟨⟨?_, ?_, .inl ⟨hempty, hempty, rfl⟩⟩, fun i => RaSet.mem_initEmpty⟩
  · refine (h.push (P := fun b => ¬ labelled b.1 b.2 ⊆ ∅) fun τ => satisfies_start).congr fun b => ?_
    rw [seRangeStart, hempty]
    exact ⟨fun hb => ⟨hb.1, Set.empty_subset _, hb.2⟩, fun hb => ⟨hb.mem, hb.leaves⟩⟩
  · exact hempty.subset

/-- The loop ends, and its end is that of a climb. -/
theorem total_seRangeLoop (ω : SatOracle) (hM : ∀ k q m, ω.answer k q = .sat m → M m)
    (hv : LabelVars inVars outVars) {solver : IpasirSolver}
    (h : solver.Describes (labels inVars outVars) fun b => L b.1 b.2) (w : World) :
    Prog.Total (Prog.loop (seRangeRound ω.answer inVars outVars)
      (seRangeStart inVars outVars solver)) (fun s w' =>
        ClimbEnd L labelled M inVars outVars s.toSet ∧ w'.stdout = w.stdout) w := by
  apply Prog.Total.loop
    (fun st w' => (∃ D, SeRangeInv L M inVars outVars st D) ∧ w'.stdout = w.stdout)
    (fun st => n - st.notUndec.numberOfElements) _ ⟨⟨_, seRangeInv_start h⟩, rfl⟩
  rintro st w' ⟨⟨D, hst⟩, hw'⟩
  apply total_seRangeRound ω hv hst.climb.describes
  · intro m w'' ha hm hw''
    obtain ⟨hinv, -, hlt⟩ := hst.next hv (hM _ _ _ ha) hm
    exact ⟨⟨⟨_, hinv⟩, hw''.trans hw'⟩, RaSet.room_lt hlt⟩
  · intro w'' hno hw''
    exact ⟨hst.climb.finish hno, hw''.trans hw'⟩

/-- What is shown at the end: the grounded extension when it decides every argument, else the
set at the end of a climb. -/
theorem total_seRangeShown (ω : SatOracle) (hM : ∀ k q m, ω.answer k q = .sat m → M m)
    (hc : task.Correct aaf grounded L Ext) (hg : Grounds aaf grounded) (w : World) :
    Prog.Total (seRangeShown ω.answer aaf grounded task.encode) (fun s w' =>
      ((aaf.framework.GroundedTotal ∧ s.set = aaf.framework.grounded) ∨
        ¬ aaf.framework.GroundedTotal ∧
          ClimbEnd L labelled M (numberPairs n 1).1 (numberPairs n 1).2.1 s.set) ∧
      s.spelling ≠ .numbered ∧ w'.stdout = w.stdout) w := by
  have hv := labelVars_numberPairs n Int.one_pos
  obtain ⟨cs, henc⟩ := hc.encodes hv
  have hdesc := henc.describes hv
  have heq := henc.eq satInit
  rw [heq] at hdesc
  simp only [seRangeShown, heq]
  split_ifs with hall
  · apply Prog.total_pure.2
    exact ⟨.inl ⟨(allGrounded_iff hg).1 hall, hg.shown_set⟩, by simp [Labeling.shown], rfl⟩
  · rw [seRangeStart_eq hv]
    apply Prog.Total.bind
    apply (total_seRangeLoop ω hM hv hdesc w).mono
    intro s w' hs
    exact Prog.total_pure.2
      ⟨.inr ⟨fun h => hall ((allGrounded_iff hg).2 h), hs.1⟩, by simp [RaSet.shown], hs.2⟩

/-- When nothing can be labelled the empty set is an extension. -/
theorem ext_of_exhausted (hsem : RangeSemantics aaf.framework L Ext) (hex : ∃ E, Ext E)
    (hnone : ∀ S T, L S T → labelled S T = ∅) : Ext ∅ := by
  obtain ⟨E, hE⟩ := hex
  have hempty := hnone _ _ (hsem.labelling_of_ext hE)
  rwa [(Set.union_empty_iff.1 hempty).1] at hE

theorem ClimbEnd.ext (hsem : RangeSemantics aaf.framework L Ext) (hex : ∃ E, Ext E)
    (hv : LabelVars inVars outVars) {P : Set (Fin n)}
    (h : ClimbEnd L labelled (fun m => ∃ τ : Assignment, m = τ.model) inVars outVars P) :
    Ext P := by
  obtain ⟨rfl, hnone⟩ | ⟨_, ⟨τ, rfl⟩, rfl, hcube⟩ := h
  · exact ext_of_exhausted hsem hex hnone
  · rw [possible_model hv.in_pos, possible_model hv.out_pos, certain_model hv.in_pos,
      certain_model hv.out_pos] at hcube
    rw [certain_model hv.in_pos]
    apply hsem.ext_of_max hcube.lower
    intro T U hTU habove
    exact (hcube.stop T U hTU habove).trans (hsem.subset_range hcube.lower)

/-- With models that leave nothing open the set shown is an extension. -/
theorem total_seRangeShown_ext (ω : TotalOracle) (hc : task.Correct aaf grounded L Ext)
    (hg : Grounds aaf grounded) (hex : ∃ E, Ext E) (w : World) :
    Prog.Total (seRangeShown ω.answer aaf grounded task.encode) (fun s w' =>
      Ext s.set ∧ s.spelling ≠ .numbered ∧ w'.stdout = w.stdout) w := by
  apply (total_seRangeShown ω.toSatOracle ω.total hc hg w).mono
  rintro s w' ⟨⟨htotal, hs⟩ | ⟨-, hend⟩, hshown⟩
  · exact ⟨(hc.of_total htotal _).2 hs, hshown⟩
  · exact ⟨hend.ext hc.semantics hex (labelVars_numberPairs n Int.one_pos), hshown⟩

theorem total_solveSeRange (ω : TotalOracle) (hc : task.Correct aaf grounded L Ext)
    (hg : Grounds aaf grounded) (hex : ∃ E, Ext E) (w : World) :
    Prog.Total (solveSeRange ω.answer aaf grounded task.encode) (fun _ w' => ∃ E line,
      Ext E ∧ WitnessLine aaf E line ∧ w'.stdout = w.stdout ++ line) w := by
  rw [solveSeRange_eq]
  apply Prog.Total.bind
  apply (total_seRangeShown_ext ω hc hg hex w).mono
  rintro s w' ⟨hext, hspelling, hw'⟩
  apply Prog.total_atomic.2
  exact ⟨_, _, hext, s.witnessLine hspelling aaf, by rw [hw']⟩

/-- A first model whose cube stops the search is the last one. -/
theorem total_seRangeLoop_stop {ω : SatOracle} (hv : LabelVars inVars outVars)
    {solver : IpasirSolver} (h : solver.Describes (labels inVars outVars) fun b => L b.1 b.2)
    {m : PartialModel} {w : World}
    (hm : ω.answer w.calls (seRangeStart inVars outVars solver).solver.query = .sat m)
    (hstop : StopCube L labelled (certain m inVars) (possible m inVars) (certain m outVars)
      (possible m outVars)) :
    Prog.Total (Prog.loop (seRangeRound ω.answer inVars outVars)
      (seRangeStart inVars outVars solver)) (fun s _ => s.toSet = certain m inVars) w := by
  have hempty : (RaSet.initEmpty n).toSet = ∅ := by ext i; simp
  apply Prog.Total.loop (fun st w' =>
    (st = seRangeStart inVars outVars solver ∧ w'.calls = w.calls) ∨
      ∃ D, SeRangeInv L (fun _ => True) inVars outVars st D ∧
        Reached L labelled inVars outVars m st.notUndec.toSet st.inArg.toSet D)
    (fun st => n - st.notUndec.numberOfElements) _ (.inl ⟨rfl, rfl⟩)
  rintro st w' (⟨rfl, hw'⟩ | ⟨D, hst, hr⟩)
  · have hst := seRangeInv_start (M := fun _ => True) h
    apply total_seRangeRound ω hv hst.climb.describes
    · intro m' w'' ha hm' _
      rw [hw', hm] at ha
      obtain rfl := Answer.sat.inj ha
      obtain ⟨hinv, hr, hlt⟩ := hst.next hv trivial hm'
      exact ⟨.inr ⟨_, hinv, hr⟩, RaSet.room_lt hlt⟩
    · intro w'' hno _
      rw [seRangeStart, hempty] at hno
      exact absurd hstop.climbs_start (hno _)
  · apply total_seRangeRound ω hv hst.climb.describes
    · intro m' w'' _ hm' _
      exact absurd (climbs_lower hv hm') (hr.not_climbs hstop _)
    · exact fun _ _ _ => hr.held_eq

/-- Every set at which the search can stop is shown in some run. -/
theorem exists_seRangeShown (hc : task.Correct aaf grounded L Ext) (hg : Grounds aaf grounded)
    (hnot : ¬ aaf.framework.GroundedTotal) {P : Set (Fin n)} (hP : StopsAt L labelled P)
    (w : World) : ∃ ω : SatOracle,
      Prog.Total (seRangeShown ω.answer aaf grounded task.encode) (fun s _ => s.set = P) w := by
  have hv := labelVars_numberPairs n Int.one_pos
  obtain ⟨cs, henc⟩ := hc.encodes hv
  have hdesc := henc.describes hv
  have heq := henc.eq satInit
  rw [heq] at hdesc
  have hholds : ∀ τ, Climbs L labelled ∅ ∅
      (labels (numberPairs n 1).1 (numberPairs n 1).2.1 τ) →
      (seRangeStart (numberPairs n 1).1 (numberPairs n 1).2.1 (satInit.pushAll cs)).solver.Holds τ := by
    intro τ hτ
    rw [seRangeStart, IpasirSolver.holds_push (IpasirSolver.pushAll_openClause rfl cs),
      IpasirSolver.holds_pushAll rfl]
    exact ⟨⟨nofun, (henc.satisfied_iff τ).2 hτ.mem⟩, satisfies_start.2 hτ.leaves⟩
  obtain ⟨ω, m, hm, rfl, hstop⟩ := exists_stopping_answer hv labelled_monotone hholds
    (IpasirSolver.pushAll_assumptions cs) hP w.calls
  refine ⟨ω, ?_⟩
  simp only [seRangeShown, heq]
  rw [if_neg fun hall => hnot ((allGrounded_iff hg).1 hall), seRangeStart_eq hv]
  apply Prog.Total.bind
  apply (total_seRangeLoop_stop hv hdesc hm hstop).mono
  intro s w' hs
  exact Prog.total_pure.2 hs

/-- Every solver leads to an extension iff the search can stop at extensions only. -/
theorem seRangeShown_open_iff (hc : task.Correct aaf grounded L Ext) (hg : Grounds aaf grounded)
    (hex : ∃ E, Ext E) :
    (∀ (ω : SatOracle) (w : World), Prog.Total
      (seRangeShown ω.answer aaf grounded task.encode) (fun s _ => Ext s.set) w) ↔
      aaf.framework.GroundedTotal ∨ ∀ P, StopsAt L labelled P → Ext P := by
  constructor
  · intro h
    by_cases htotal : aaf.framework.GroundedTotal
    · exact .inl htotal
    · refine .inr fun P hP => ?_
      obtain ⟨ω, s, w', hr, rfl⟩ := exists_seRangeShown hc hg htotal hP ⟨0, "", true⟩
      exact (h ω _).of_returns hr
  · intro h ω w
    apply (total_seRangeShown ω (M := fun _ => True) (fun _ _ _ _ => trivial) hc hg w).mono
    rintro s w' ⟨⟨htotal, hs⟩ | ⟨hnot, hend⟩, -⟩
    · exact (hc.of_total htotal _).2 hs
    · obtain ⟨hs, hnone⟩ | ⟨m, -, hs, hcube⟩ := hend
      · exact hs ▸ ext_of_exhausted hc.semantics hex hnone
      · exact h.resolve_left hnot _ ⟨_, _, _, hs ▸ hcube⟩

end Loop

section Tasks
variable (ω : TotalOracle) (aaf : AAF n) (w : World)

/-- SE-SST prints a semi-stable extension. -/
theorem solveSesst_semiStable :
    Prog.Total (solveSesst ω.answer aaf (computeGrounded aaf).1) (fun _ w' => ∃ E line,
      aaf.framework.SemiStable E ∧ WitnessLine aaf E line ∧ w'.stdout = w.stdout ++ line) w :=
  total_solveSeRange ω (dcsst_correct (computeGrounded_represents aaf))
    (computeGrounded_represents aaf) SemiStable.exists w

/-- SE-STG prints a stage extension. -/
theorem solveSestg_stage :
    Prog.Total (solveSestg ω.answer aaf (computeGrounded aaf).1) (fun _ w' => ∃ E line,
      aaf.framework.Stage E ∧ WitnessLine aaf E line ∧ w'.stdout = w.stdout ++ line) w :=
  total_solveSeRange ω dcstg_correct (computeGrounded_represents aaf) Stage.exists w

end Tasks

end TaasFudge
