import TaasFudge.Tasks.SePr
import TaasFudge.Tasks.SeRangeCorrectness

/-! # Maximality with open variables

The loops of SE-PR, SE-SST and SE-STG ask for one more argument among those with a
negative value. A solver may leave open a variable that the formula does not need;
such an argument is neither kept nor asked for, and the loops can end below a
maximal set. This file says for which frameworks they cannot.
-/

namespace TaasFudge

open Dimacs Framework

variable {n : ℕ}

section Sepr
variable {aaf : AAF n} {grounded : Labeling} {inVars outVars : Fin n → ℤ} {m : PartialModel}
  {st : SeprState n} {M : PartialModel → Prop} {D : Set (Fin n)}
  {L : Set (Fin n) → Set (Fin n) → Prop}

def SeprState.next (inVars : Fin n → ℤ) (m : PartialModel) (st : SeprState n) : SeprState n :=
  let temp := ((List.finRange n).filter fun i : Fin n =>
    !st.admSet.contains i && decide (0 < m.value (inVars i))).foldl RaSet.add st.temp
  ⟨((st.solver.satisfied m).push ((negatives m inVars).map inVars)).pushAll
      (temp.elementsArr.map fun i => [inVars i]),
    temp.elementsArr.foldl RaSet.add st.admSet, temp.reset⟩

structure SeprClimb (L : Set (Fin n) → Set (Fin n) → Prop) (M : PartialModel → Prop)
    (inVars outVars : Fin n → ℤ) (st : SeprState n) (D : Set (Fin n)) : Prop where
  climb : ClimbInv L inSet M inVars outVars st.solver st.admSet.toSet st.admSet.toSet D
  temp_empty : ∀ i, i ∉ st.temp

theorem satisfies_notPossible {τ : Assignment} :
    τ.Satisfies ((negatives m inVars).map inVars) ↔
      ¬ inSet (selected τ inVars) (selected τ outVars) ⊆
        inSet (possible m inVars) (possible m outVars) := by
  rw [Assignment.satisfies_map, Set.not_subset]
  simp [negatives, inSet, possible, and_comm]

theorem SeprClimb.next (h : SeprClimb L M inVars outVars st D) (hv : LabelVars inVars outVars)
    (hM : M m) (hm : ∀ τ, m.Completion τ →
      Climbs L inSet st.admSet.toSet D (labels inVars outVars τ)) :
    SeprClimb L M inVars outVars (st.next inVars m)
      (inSet (possible m inVars) (possible m outVars)) ∧
    Reached L inSet inVars outVars m (st.next inVars m).admSet.toSet
      (st.next inVars m).admSet.toSet (inSet (possible m inVars) (possible m outVars)) ∧
    st.admSet.toSet ⊂ (st.next inVars m).admSet.toSet := by
  have hlow := climbs_lower hv hm
  have habove : st.admSet.toSet ⊆ certain m inVars := hlow.above
  have htemp : ∀ i, i ∈ ((List.finRange n).filter fun i : Fin n =>
      !st.admSet.contains i && decide (0 < m.value (inVars i))).foldl RaSet.add st.temp ↔
      i ∉ st.admSet ∧ i ∈ certain m inVars := by
    intro i
    rw [RaSet.mem_foldl_add]
    simp [h.temp_empty, Bool.eq_false_iff, certain]
  have hnext : (st.next inVars m).admSet.toSet =
      st.admSet.toSet ∪ certain m inVars \ st.admSet.toSet := by
    ext i
    rw [SeprState.next, RaSet.mem_toSet, RaSet.mem_foldl_add, ← RaSet.mem_def, htemp]
    by_cases hi : i ∈ st.admSet <;> simp [hi]
  have hcertain : (st.next inVars m).admSet.toSet = certain m inVars := by
    rw [hnext, Set.union_sdiff_self, Set.union_eq_right.2 habove]
  have hcs : ∀ τ : Assignment, (∀ d ∈ (((List.finRange n).filter fun i : Fin n =>
      !st.admSet.contains i && decide (0 < m.value (inVars i))).foldl RaSet.add
        st.temp).elementsArr.map fun i => [inVars i], τ.Satisfies d) ↔
      certain m inVars \ st.admSet.toSet ⊆ inSet (selected τ inVars) (selected τ outVars) := by
    intro τ
    rw [satisfies_units]
    constructor
    · rintro hτ i ⟨hi, hnot⟩
      exact hτ i ((htemp i).2 ⟨hnot, hi⟩)
    · intro hτ i hi
      obtain ⟨hnot, hlab⟩ := (htemp i).1 hi
      exact hτ ⟨hlab, hnot⟩
  have hclimb := h.climb.next hv hM hm inSet_monotone (fun τ => satisfies_notPossible) hcs hnext
    (hnext.symm.trans hcertain) hcertain
  exact ⟨⟨hclimb.1, fun i => RaSet.mem_reset⟩, hclimb.2⟩

/-- A round goes on with the state after a model, or ends with the current set. -/
theorem total_seprRound_open (ω : SatOracle) (hv : LabelVars inVars outVars)
    {R : Set (Fin n) × Set (Fin n) → Prop}
    (h : st.solver.Describes (labels inVars outVars) R) {w : World}
    {Q : LoopStep (SeprState n) (RaSet n) → World → Prop}
    (hsat : ∀ m w', ω.answer w.calls st.solver.query = .sat m →
      (∀ τ, m.Completion τ → R (labels inVars outVars τ)) → w'.stdout = w.stdout →
      Q (.again (st.next inVars m)) w')
    (hunsat : ∀ w', (∀ b, ¬ R b) → w'.stdout = w.stdout → Q (.exit st.admSet) w') :
    Prog.Total (seprRound ω.answer inVars st) Q w := by
  apply Prog.Total.bind
  apply h.total_satSolve_open ω
  · intro m w' ha hm hw'
    dsimp only
    rw [if_neg (by decide), seprRead_of_sat rfl, pure_bind]
    dsimp only
    rw [satAddClause_eq fun l => ne_zero_of_mem_map hv.in_ne, List.take_length,
      foldl_impose hv.in_ne, Prog.total_pure]
    exact hsat m w' ha hm hw'
  · intro w' hno hw'
    dsimp only
    rw [if_pos rfl, Prog.total_pure]
    exact hunsat w' hno hw'

/-- The object before the first search has one more clause than the encoding. -/
theorem seprStart_none (hv : LabelVars inVars outVars) (solver : IpasirSolver) :
    seprStart inVars solver none =
      ⟨solver.push ((List.finRange n).map inVars), RaSet.initEmpty n, RaSet.initEmpty n⟩ := by
  rw [seprStart, ← satAdd_zero_foldl fun l => ne_zero_of_mem_map hv.in_ne, List.foldl_map]

theorem seprClimb_start (hv : LabelVars inVars outVars) {solver : IpasirSolver}
    (h : solver.Describes (labels inVars outVars) fun b =>
      aaf.framework.AdmissibleLabelling b.1 b.2) :
    SeprClimb aaf.framework.AdmissibleLabelling M inVars outVars (seprStart inVars solver none) ∅ := by
  have hinit : ∀ s ∈ (none : Option (RaSet n)), aaf.framework.Admissible s.toSet := by simp
  have hinv := seprStart_inv hv h hinit
  have hempty : (seprStart inVars solver none).admSet.toSet = ∅ := by ext i; simp [seprStart]
  refine ⟨⟨?_, hempty.subset, .inl ⟨hempty, hempty, rfl⟩⟩, hinv.temp_empty⟩
  refine hinv.describes.congr fun b => ?_
  rw [hempty]
  exact ⟨fun hb => ⟨hb.1, hb.2.1, hb.2.2⟩, fun hb => ⟨hb.mem, hb.above, hb.leaves⟩⟩

/-- What is shown at the end: the grounded extension when it decides every argument, else the
set at the end of a climb. -/
theorem total_seprShown (ω : SatOracle) (hg : Grounds aaf grounded) (w : World) :
    Prog.Total (seprShown ω.answer aaf grounded none) (fun s _ =>
      (aaf.framework.GroundedTotal ∧ s.set = aaf.framework.grounded) ∨
        ClimbEnd aaf.framework.AdmissibleLabelling inSet (fun _ => True) (numberPairs n 1).1
          (numberPairs n 1).2.1 s.set) w := by
  have hv := labelVars_numberPairs n Int.one_pos
  have henc := addAdmTestClauses_encodes hv hg
  have hdesc := henc.describes hv
  have heq := henc.eq satInit
  rw [heq] at hdesc
  simp only [seprShown, heq]
  split_ifs with hall
  · exact Prog.total_pure.2 (.inl ⟨(allGrounded_iff hg).1 hall, hg.shown_set⟩)
  · apply Prog.Total.bind
    apply Prog.Total.loop (fun st _ => ∃ D, SeprClimb aaf.framework.AdmissibleLabelling
      (fun _ => True) (numberPairs n 1).1 (numberPairs n 1).2.1 st D)
      (fun st => n - st.admSet.numberOfElements) _ ⟨_, seprClimb_start hv hdesc⟩
    rintro st w' ⟨D, hst⟩
    apply total_seprRound_open ω hv hst.climb.describes
    · intro m w'' _ hm _
      obtain ⟨hinv, -, hlt⟩ := hst.next hv trivial hm
      exact ⟨⟨_, hinv⟩, RaSet.room_lt hlt⟩
    · intro w'' hno _
      exact Prog.total_pure.2 (.inr (hst.climb.finish hno))

/-- A first model whose cube stops the search is the last one. -/
theorem total_seprLoop_stop {ω : SatOracle} (hv : LabelVars inVars outVars)
    {solver : IpasirSolver} (h : solver.Describes (labels inVars outVars) fun b =>
      aaf.framework.AdmissibleLabelling b.1 b.2) {w : World}
    (hm : ω.answer w.calls (seprStart inVars solver none).solver.query = .sat m)
    (hstop : StopCube aaf.framework.AdmissibleLabelling inSet (certain m inVars)
      (possible m inVars) (certain m outVars) (possible m outVars)) :
    Prog.Total (Prog.loop (seprRound ω.answer inVars) (seprStart inVars solver none))
      (fun s _ => s.toSet = certain m inVars) w := by
  have hempty : (RaSet.initEmpty n).toSet = ∅ := by ext i; simp
  apply Prog.Total.loop (fun st w' =>
    (st = seprStart inVars solver none ∧ w'.calls = w.calls) ∨
      ∃ D, SeprClimb aaf.framework.AdmissibleLabelling (fun _ => True) inVars outVars st D ∧
        Reached aaf.framework.AdmissibleLabelling inSet inVars outVars m st.admSet.toSet
          st.admSet.toSet D)
    (fun st => n - st.admSet.numberOfElements) _ (.inl ⟨rfl, rfl⟩)
  rintro st w' (⟨rfl, hw'⟩ | ⟨D, hst, hr⟩)
  · have hst := seprClimb_start (M := fun _ => True) hv h
    apply total_seprRound_open ω hv hst.climb.describes
    · intro m' w'' ha hm' _
      rw [hw', hm] at ha
      obtain rfl := Answer.sat.inj ha
      obtain ⟨hinv, hr, hlt⟩ := hst.next hv trivial hm'
      exact ⟨.inr ⟨_, hinv, hr⟩, RaSet.room_lt hlt⟩
    · intro w'' hno _
      rw [seprStart_none hv, hempty] at hno
      exact absurd hstop.climbs_start (hno _)
  · apply total_seprRound_open ω hv hst.climb.describes
    · intro m' w'' _ hm' _
      exact absurd (climbs_lower hv hm') (hr.not_climbs hstop _)
    · exact fun _ _ _ => hr.held_eq

/-- Every set at which the search can stop is shown in some run. -/
theorem exists_seprShown (hg : Grounds aaf grounded) (hnot : ¬ aaf.framework.GroundedTotal)
    {P : Set (Fin n)} (hP : StopsAt aaf.framework.AdmissibleLabelling inSet P) (w : World) :
    ∃ ω : SatOracle, Prog.Total (seprShown ω.answer aaf grounded none) (fun s _ => s.set = P) w := by
  have hv := labelVars_numberPairs n Int.one_pos
  have henc := addAdmTestClauses_encodes hv hg
  have hdesc := henc.describes hv
  have heq := henc.eq satInit
  rw [heq] at hdesc
  have hholds : ∀ τ, Climbs aaf.framework.AdmissibleLabelling inSet ∅ ∅
      (labels (numberPairs n 1).1 (numberPairs n 1).2.1 τ) →
      (seprStart (numberPairs n 1).1 (satInit.pushAll ((List.finRange n).flatMap
        (admClauses (numberPairs n 1).1 (numberPairs n 1).2.1 aaf grounded))) none).solver.Holds τ := by
    intro τ hτ
    rw [seprStart_none hv, IpasirSolver.holds_push (IpasirSolver.pushAll_openClause rfl _),
      IpasirSolver.holds_pushAll rfl]
    refine ⟨⟨nofun, (henc.satisfied_iff τ).2 hτ.mem⟩, ?_⟩
    obtain ⟨i, hi, -⟩ := Set.not_subset.1 hτ.leaves
    exact (τ.satisfies_map _ _).2 ⟨i, List.mem_finRange i, hi⟩
  obtain ⟨ω, m, hm, rfl, hstop⟩ := exists_stopping_answer hv inSet_monotone hholds
    (by rw [seprStart_none hv]; exact IpasirSolver.pushAll_assumptions _) hP w.calls
  refine ⟨ω, ?_⟩
  simp only [seprShown, heq]
  rw [if_neg fun hall => hnot ((allGrounded_iff hg).1 hall)]
  apply Prog.Total.bind
  apply (total_seprLoop_stop hv hdesc hm hstop).mono
  intro s w' hs
  exact Prog.total_pure.2 hs

/-- With a total grounded labelling a search for larger admissible sets stops only there. -/
theorem GroundedTotal.stopsAt (h : aaf.framework.GroundedTotal) {P : Set (Fin n)}
    {f : Set (Fin n) → Set (Fin n) → Set (Fin n)}
    (hP : StopsAt aaf.framework.AdmissibleLabelling f P) : P = aaf.framework.grounded := by
  obtain ⟨E, O, Q, hcube⟩ := hP
  exact h.eq_grounded hcube.lower.admissible.conflictFree hcube.lower.grounded_in

/-- Every solver leads to a preferred extension iff the search can stop at those only. -/
theorem seprShown_open_iff (hg : Grounds aaf grounded) :
    (∀ (ω : SatOracle) (w : World), Prog.Total (seprShown ω.answer aaf grounded none)
      (fun s _ => aaf.framework.Preferred s.set) w) ↔
      ∀ P, StopsAt aaf.framework.AdmissibleLabelling inSet P → aaf.framework.Preferred P := by
  constructor
  · intro h P hP
    by_cases htotal : aaf.framework.GroundedTotal
    · exact htotal.preferred_iff.2 (GroundedTotal.stopsAt htotal hP)
    · obtain ⟨ω, s, w', hr, rfl⟩ := exists_seprShown hg htotal hP ⟨0, "", true⟩
      exact (h ω _).of_returns hr
  · intro h ω w
    apply (total_seprShown ω hg w).mono
    rintro s w' (⟨htotal, hs⟩ | ⟨hs, hnone⟩ | ⟨m, -, hs, hcube⟩)
    · exact htotal.preferred_iff.2 hs
    · obtain ⟨P, hP⟩ := exists_preferred (F := aaf.framework)
      have hempty := hnone _ _ (hP.prop.labelling hP.grounded_subset)
      rw [hs]
      exact hempty ▸ hP
    · exact h _ ⟨_, _, _, hs ▸ hcube⟩

end Sepr

/-- A task prints the set it shows, which satisfies `Ext`, and terminates. -/
structure Prints (aaf : AAF n) (Ext : Set (Fin n) → Prop) (task : Prog World Unit)
    (shown : Prog World (Shown n)) : Prop where
  eq : task = do
    let s ← shown
    printf (s.line aaf)
  total : ∀ w, Prog.Total shown (fun s _ => Ext s.set) w

/-- Models with open variables lead SE-PR to a preferred extension iff no other admissible set
defends exactly a preferred extension; SE-SST to a semi-stable one iff no admissible set defends
more than its members while no admissible set of at least its range leaves what it defends and
attacks; and SE-STG to a stage extension iff the grounded labelling is total, or no set can be
enlarged without attacking more while no conflict-free set of at least its range leaves the
range reached. -/
theorem maximality_open_iff (aaf : AAF n) :
    ((∀ ω : SatOracle, Prints aaf aaf.framework.Preferred
        (solveSepr ω.answer aaf (computeGrounded aaf).1 none)
        (seprShown ω.answer aaf (computeGrounded aaf).1 none)) ↔
      ∀ P, aaf.framework.Admissible P → aaf.framework.grounded ⊆ P → P.Nonempty →
        aaf.framework.Preferred (aaf.framework.characteristic P) →
        aaf.framework.characteristic P = P) ∧
    ((∀ ω : SatOracle, Prints aaf aaf.framework.SemiStable
        (solveSesst ω.answer aaf (computeGrounded aaf).1)
        (seRangeShown ω.answer aaf (computeGrounded aaf).1 addAdmTestClauses)) ↔
      ∀ P, aaf.framework.Admissible P → aaf.framework.grounded ⊆ P → P.Nonempty →
        (∀ S, aaf.framework.Admissible S → aaf.framework.grounded ⊆ S →
          aaf.framework.range P ⊆ aaf.framework.range S →
          aaf.framework.range S ⊆ aaf.framework.characteristic P ∪ aaf.framework.attackedBy P) →
        aaf.framework.characteristic P = P) ∧
    ((∀ ω : SatOracle, Prints aaf aaf.framework.Stage
        (solveSestg ω.answer aaf (computeGrounded aaf).1)
        (seRangeShown ω.answer aaf (computeGrounded aaf).1 addCfTestClauses)) ↔
      aaf.framework.GroundedTotal ∨
      ∀ P E, aaf.framework.ConflictFree E → P ⊆ E →
        aaf.framework.attackedBy E = aaf.framework.attackedBy P → P.Nonempty →
        (∀ S, aaf.framework.ConflictFree S → aaf.framework.range P ⊆ aaf.framework.range S →
          aaf.framework.range S ⊆ aaf.framework.range E) → E = P) := by
  have hg := computeGrounded_represents aaf
  refine ⟨?_, ?_, ?_⟩
  · rw [← stopsAt_preferred_iff, ← seprShown_open_iff hg]
    constructor
    · exact fun h ω w => (h ω).total w
    · exact fun h ω => ⟨solveSepr_eq _ _ _ _, h ω⟩
  · rw [← stopsAt_semiStable_iff]
    have hiff := seRangeShown_open_iff (dcsst_correct hg) hg SemiStable.exists
    constructor
    · intro h P hP
      obtain htotal | hstop := hiff.1 fun ω w => (h ω).total w
      · exact htotal.semiStable_iff.2 (GroundedTotal.stopsAt htotal hP)
      · exact hstop P hP
    · exact fun h ω => ⟨solveSeRange_eq _ _ _ _, hiff.2 (.inr h) ω⟩
  · rw [← stopsAt_stage_iff]
    have hcorrect : (dcstg n).Correct aaf (computeGrounded aaf).1
        aaf.framework.ConflictFreeLabelling aaf.framework.Stage := dcstg_correct
    have hiff := seRangeShown_open_iff hcorrect hg Stage.exists
    constructor
    · exact fun h => hiff.1 fun ω w => (h ω).total w
    · exact fun h ω => ⟨solveSeRange_eq _ _ _ _, hiff.2 h ω⟩

def defendedThird : AAF 3 :=
  let first : Fin 3 := ⟨0, by decide⟩
  let second : Fin 3 := ⟨1, by decide⟩
  let third : Fin 3 := ⟨2, by decide⟩
  (((AAF.withoutAttacks fun i => toString ((i : ℕ) + 1)).addAttack first second).addAttack second
    first).addAttack second third

/-- A model that leaves the third argument open while the first is IN makes SE-PR print less than
a preferred extension. -/
theorem sepr_defendedThird : ¬ ∀ ω : SatOracle, Prints defendedThird
    defendedThird.framework.Preferred
    (solveSepr ω.answer defendedThird (computeGrounded defendedThird).1 none)
    (seprShown ω.answer defendedThird (computeGrounded defendedThird).1 none) := by
  have hattacks : ∀ a b : Fin 3, defendedThird.framework.attacks a b ↔
      (a = 0 ∧ b = 1) ∨ (a = 1 ∧ b = 0) ∨ (a = 1 ∧ b = 2) := by
    simp only [AAF.attacks_iff]
    decide
  have hmem : ∀ a, a ∈ defendedThird.framework.characteristic {0} ↔ a ≠ 1 := by
    intro a
    constructor
    · -- the second argument is attacked by the first, which the first does not attack
      rintro ha rfl
      obtain ⟨b, rfl, hb⟩ := ha 0 ((hattacks 0 1).2 (by decide))
      exact absurd ((hattacks 0 0).1 hb) (by decide)
    · intro ha b hb
      rw [hattacks] at hb
      obtain rfl : b = 1 := by omega
      exact ⟨0, rfl, (hattacks 0 1).2 (by decide)⟩
  have hcf : defendedThird.framework.ConflictFree (defendedThird.framework.characteristic {0}) := by
    intro a ha b hb
    rw [hmem] at ha hb
    rw [hattacks]
    omega
  have hzero : ({0} : Set (Fin 3)) ⊆ defendedThird.framework.characteristic {0} := by
    rintro a rfl
    exact (hmem 0).2 (by decide)
  have hadm : defendedThird.framework.Admissible {0} := ⟨hcf.mono hzero, hzero⟩
  have hgrounded : defendedThird.framework.grounded ⊆ {0} := by
    refine (grounded_subset_of_closed (S := ∅) fun a ha => ?_).trans (Set.empty_subset _)
    obtain ⟨b, hb⟩ : ∃ b : Fin 3, (b = 0 ∧ a = 1) ∨ (b = 1 ∧ a = 0) ∨ (b = 1 ∧ a = 2) := by
      clear ha
      revert a
      decide
    obtain ⟨c, hc, -⟩ := ha b ((hattacks b a).2 hb)
    exact hc
  have hpref : defendedThird.framework.Preferred
      (defendedThird.framework.characteristic {0}) := by
    obtain ⟨P, hP, hpref⟩ := hadm.exists_preferred
    convert hpref
    apply (hpref.characteristic_subset hP).antisymm
    intro a ha
    rw [hmem]
    rintro rfl
    exact hpref.prop.conflictFree 0 (hP rfl) 1 ha ((hattacks 0 1).2 (by decide))
  intro h
  have hstops := (seprShown_open_iff (computeGrounded_represents defendedThird)).1
    fun ω w => (h ω).total w
  have hfix := stopsAt_preferred_iff.1 hstops {0} hadm hgrounded (Set.singleton_nonempty 0) hpref
  have htwo : (2 : Fin 3) ∈ ({0} : Set (Fin 3)) := hfix ▸ (hmem 2).2 (by decide)
  exact absurd htwo (by decide)

end TaasFudge
