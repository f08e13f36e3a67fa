import TaasFudge.Cnf.Completion
import TaasFudge.Tasks.DsPr
import TaasFudge.Tasks.OpenModels

/-! # DS-PR with open variables

The set that SE-PR ends with may leave out arguments that a model left open, but what it
defends is a preferred extension. The answer of DS-PR is right all the same: the sets that attack
are read from positive values, the sets that are blocked from negative ones, so a model stands
for its least and for its greatest completion.
-/

namespace TaasFudge

open Dimacs Framework

variable {n : ℕ}

/-- An admissible set above the grounded extension that defends exactly a preferred extension. -/
structure Framework.DefendsPreferred {α : Type*} (F : Framework α) (E : Set α) : Prop where
  admissible : F.Admissible E
  grounded_subset : F.grounded ⊆ E
  preferred : F.Preferred (F.characteristic E)

theorem Framework.Preferred.defendsPreferred {α : Type*} {F : Framework α} {P : Set α}
    (h : F.Preferred P) : F.DefendsPreferred P := by
  have hfix : F.characteristic P = P :=
    (h.characteristic_subset subset_rfl).antisymm h.prop.subset_characteristic
  exact ⟨h.prop, h.grounded_subset, hfix.symm ▸ h⟩

/-- Where a search for larger admissible sets stops. -/
theorem Framework.StopsAt.defendsPreferred {α : Type*} {F : Framework α} {P : Set α}
    (h : StopsAt F.AdmissibleLabelling inSet P)
    (hex : ∀ S, F.Admissible S → ∃ R, S ⊆ R ∧ F.Preferred R) :
    F.DefendsPreferred P := by
  obtain ⟨E, O, Q, hcube, -, hstop⟩ := h
  have hP : F.Admissible P := hcube.lower.admissible
  refine ⟨hP, hcube.lower.grounded_in, ?_⟩
  obtain ⟨R, hPR, hR⟩ := hex P hP
  have hRE : R ⊆ F.characteristic P :=
    (hstop R _ (hR.prop.labelling hR.grounded_subset) hPR).trans hcube.subset_characteristic
  rwa [← hRE.antisymm (hR.characteristic_subset hPR)]

section Sepr
variable {aaf : AAF n} {grounded : Labeling} {inVars outVars : Fin n → ℤ} {st : SeprState n}
  {D : Set (Fin n)}

/-- An admissible set to start from counts as the result of a model without open variables. -/
theorem seprClimb_some (hv : LabelVars inVars outVars) {solver : IpasirSolver}
    (h : solver.Describes (labels inVars outVars) fun b =>
      aaf.framework.AdmissibleLabelling b.1 b.2) {s : RaSet n}
    (hs : aaf.framework.Admissible s.toSet) (hG : aaf.framework.grounded ⊆ s.toSet)
    (hne : s.toSet.Nonempty) :
    SeprClimb aaf.framework.AdmissibleLabelling (fun _ => True) inVars outVars
      (seprStart inVars solver (some s)) s.toSet := by
  have hinit : ∀ t ∈ some s, aaf.framework.Admissible t.toSet := by
    rintro t ht
    cases ht
    exact hs
  have hinv := seprStart_inv hv h hinit
  refine ⟨⟨?_, subset_rfl, .inr ?_⟩, hinv.temp_empty⟩
  · apply hinv.describes.congr
    intro b
    exact ⟨fun hb => ⟨hb.1, hb.2.1, hb.2.2⟩, fun hb => ⟨hb.mem, hb.above, hb.leaves⟩⟩
  · obtain ⟨τ, hin, hout⟩ := hv.exists_assignment s.toSet (aaf.framework.attackedBy s.toSet)
    have hlab := hs.labelling hG
    refine ⟨τ.model, trivial, ?_, ?_, ?_, ?_, hne⟩
    · apply cube_of_completions hv
      intro υ hυ
      rw [τ.model_completion_iff.1 hυ, hin, hout]
      exact hlab
    · exact ((certain_model hv.in_pos).trans hin).symm
    · exact ((certain_model hv.in_pos).trans hin).symm
    · exact ((possible_model hv.in_pos).trans hin).symm

theorem total_seprLoop_open (ω : SatOracle) (hv : LabelVars inVars outVars)
    (h : SeprClimb aaf.framework.AdmissibleLabelling (fun _ => True) inVars outVars st D)
    (w : World) :
    Prog.Total (Prog.loop (seprRound ω.answer inVars) st) (fun s w' =>
      ClimbEnd aaf.framework.AdmissibleLabelling inSet (fun _ => True) inVars outVars s.toSet ∧
        st.admSet.toSet ⊆ s.toSet ∧ w'.stdout = w.stdout) w := by
  apply Prog.Total.loop (fun st' w' => (∃ D, SeprClimb aaf.framework.AdmissibleLabelling
      (fun _ => True) inVars outVars st' D) ∧ st.admSet.toSet ⊆ st'.admSet.toSet ∧
        w'.stdout = w.stdout)
    (fun st' => n - st'.admSet.numberOfElements) _ ⟨⟨D, h⟩, subset_rfl, rfl⟩
  rintro st' w' ⟨⟨D, hst⟩, hsub, hw'⟩
  apply total_seprRound_open ω hv hst.climb.describes
  · intro m w'' _ hm hw''
    obtain ⟨hinv, -, hlt⟩ := hst.next hv trivial hm
    exact ⟨⟨⟨_, hinv⟩, hsub.trans hlt.subset, hw''.trans hw'⟩, RaSet.room_lt hlt⟩
  · intro w'' hno hw''
    exact ⟨hst.climb.finish hno, hsub, hw''.trans hw'⟩

/-- The set at the end of a climb defends a preferred extension. -/
theorem ClimbEnd.defendsPreferred {P : Set (Fin n)}
    (h : ClimbEnd aaf.framework.AdmissibleLabelling inSet (fun _ => True) inVars outVars P) :
    aaf.framework.DefendsPreferred P := by
  obtain ⟨rfl, hnone⟩ | ⟨m, -, rfl, hcube⟩ := h
  · obtain ⟨R, hR⟩ := exists_preferred (F := aaf.framework)
    have hempty : R = ∅ := hnone R _ (hR.prop.labelling hR.grounded_subset)
    exact (hempty ▸ hR).defendsPreferred
  · exact StopsAt.defendsPreferred ⟨_, _, _, hcube⟩ fun S hS => hS.exists_preferred

/-- With any solver SE-PR prints a set that defends a preferred extension, and that contains the
set it starts from. -/
theorem total_solveSepr_open (ω : SatOracle) (hg : Grounds aaf grounded)
    {initialAdmSet : Option (RaSet n)}
    (hinit : ∀ s ∈ initialAdmSet, aaf.framework.Admissible s.toSet ∧
      aaf.framework.grounded ⊆ s.toSet ∧ s.toSet.Nonempty) (w : World) :
    Prog.Total (solveSepr ω.answer aaf grounded initialAdmSet) (fun _ w' => ∃ line,
      GivesWitness aaf (fun E => aaf.framework.DefendsPreferred E ∧
        ∀ s ∈ initialAdmSet, s.toSet ⊆ E) line ∧ w'.stdout = w.stdout ++ line) w := by
  have hv := labelVars_numberPairs n Int.one_pos
  have henc := addAdmTestClauses_encodes hv hg
  have hdesc := henc.describes hv
  have heq := henc.eq satInit
  rw [heq] at hdesc
  simp only [solveSepr, heq]
  split_ifs with hall
  · have htotal := (allGrounded_iff hg).1 hall
    have hpref := htotal.preferred_iff.2 rfl
    apply Prog.total_atomic.2
    refine ⟨_, ⟨_, ⟨hpref.defendsPreferred, ?_⟩, hg.printI23_witness aaf ?_⟩, rfl⟩
    · intro s hs
      obtain ⟨P, hsP, hP⟩ := (hinit s hs).1.exists_preferred
      exact htotal.preferred_iff.1 hP ▸ hsP
    · intro i hi ho
      exact grounded_complete.notMem_of_grounded_attacks ho hi
  · have hstart : ∃ D, SeprClimb aaf.framework.AdmissibleLabelling (fun _ => True)
        (numberPairs n 1).1 (numberPairs n 1).2.1 (seprStart (numberPairs n 1).1
          (satInit.pushAll ((List.finRange n).flatMap
            (admClauses (numberPairs n 1).1 (numberPairs n 1).2.1 aaf grounded)))
          initialAdmSet) D := by
      cases initialAdmSet with
      | none => exact ⟨_, seprClimb_start hv hdesc⟩
      | some s =>
        obtain ⟨hs, hG, hne⟩ := hinit s rfl
        exact ⟨_, seprClimb_some hv hdesc hs hG hne⟩
    obtain ⟨D, hstart⟩ := hstart
    apply Prog.Total.bind
    apply (total_seprLoop_open ω hv hstart w).mono
    rintro s w' ⟨hend, hsub, hw'⟩
    apply Prog.total_atomic.2
    refine ⟨_, ⟨_, ⟨hend.defendsPreferred, ?_⟩, s.printI23_witness aaf rfl⟩, by rw [hw']⟩
    intro t ht
    cases ht
    exact hsub

end Sepr

section Values
variable {m : PartialModel} {vars : Fin n → ℤ} {β : Type} {solver : IpasirSolver}
  {π : Assignment → β} {R A : β → Prop}

theorem positives_fill (hpos : ∀ i, 0 < vars i) :
    positives (m.fill false).model vars = positives m vars := by
  have hsign := fun i => m.sign_fill false (hpos i)
  simp only [sign_false] at hsign
  simp only [positives, hsign]

theorem negatives_fill (hpos : ∀ i, 0 < vars i) :
    negatives (m.fill true).model vars = negatives m vars := by
  have hsign := fun i => m.sign_fill true (hpos i)
  simp only [sign_true] at hsign
  simp only [negatives, hsign]

/-- What an object describes does not depend on its last model. -/
theorem IpasirSolver.Describes.remodel (h : solver.Describes π R) (m : PartialModel) :
    IpasirSolver.Describes { solver with model := m } π R :=
  ⟨h.closed, h.unassumed, h.sound, h.complete⟩

/-- A search under assumptions finds a model of which all completions satisfy `R` and the
assumptions, or there is no element that does. -/
theorem IpasirSolver.Describes.total_satSolve_assuming (h : solver.Describes π R) (ω : SatOracle)
    (ls : List ℤ) (hA : ∀ τ : Assignment, (∀ l ∈ ls, τ.lit l = true) ↔ A (π τ))
    {Q : ℤ × IpasirSolver → World → Prop} {w : World}
    (hsat : ∀ m w', (∀ τ, m.Completion τ → R (π τ) ∧ A (π τ)) → w'.stdout = w.stdout →
      Q (10, solver.satisfied m) w')
    (hunsat : ∀ w', (∀ b, R b → ¬ A b) → w'.stdout = w.stdout → Q (20, solver.refuted) w') :
    Prog.Total (satSolve ω.answer (solver.assumeAll ls)) Q w := by
  have hsound := ω.sound w.calls (solver.assumeAll ls).query
  rw [satSolve, Prog.total_atomic]
  rw [assumeAll_eq] at hsound ⊢
  cases ha : ω.answer w.calls (IpasirSolver.query { solver with
      assumptions := solver.assumptions ++ ls
      state := if ls = [] then solver.state else .input }) with
  | sat m =>
    rw [ha] at hsound
    apply hsat m
    · intro τ hτ
      obtain ⟨hclauses, hassumed⟩ := hsound τ hτ
      exact ⟨h.sound τ hclauses, (hA τ).1 fun l hl => hassumed l (List.mem_append_right _ hl)⟩
    · rfl
  | unsat =>
    rw [ha] at hsound
    apply hunsat
    · intro b hb hAb
      obtain ⟨τ, hτ, rfl⟩ := h.complete b hb
      apply hsound τ
      refine ⟨hτ, fun l hl => (hA τ).2 hAb l ?_⟩
      simpa [query, h.unassumed] using hl
    · rfl

end Values

section Dspr
variable {aaf : AAF n} {grounded : Labeling} {arg : Fin n} {doPrint : Bool}
  {inVars outVars inAttackedVars outAttackedVars : Fin n → ℤ}

/-- The text of DS-PR when the set printed only defends a preferred extension. -/
def DsprOpenText (aaf : AAF n) (arg : Fin n) (r : Bool) (text : String) : Prop :=
  if r then text = ""
  else GivesWitness aaf (fun E => aaf.framework.DefendsPreferred E ∧
    arg ∉ aaf.framework.characteristic E) text

def DsprOpenPost (aaf : AAF n) (arg : Fin n) (doPrint : Bool) (w : World) (r : Bool) (w' : World) :
    Prop :=
  (r = true ↔ aaf.framework.Sceptical arg) ∧ Reported doPrint r (DsprOpenText aaf arg r) w w'

/-- A nonempty set outside which the argument stays: the admissible labelling was read from the
positive values of a model. -/
structure StaysOut (aaf : AAF n) (arg : Fin n) (S : Set (Fin n)) : Prop where
  admissible : aaf.framework.Admissible S
  grounded_subset : aaf.framework.grounded ⊆ S
  nonempty : S.Nonempty
  out : ∀ P, aaf.framework.Preferred P → S ⊆ P → arg ∉ P

theorem total_dspr_no_open (ω : SatOracle) (hg : Grounds aaf grounded) (hin : ∀ i, 0 < inVars i)
    {solver : IpasirSolver} {m : PartialModel} (hstate : solver.state = .sat)
    (hmodel : solver.model = m) (hout : StaysOut aaf arg (selected (m.fill false) inVars))
    {w₀ w : World} (hw : w.stdout = w₀.stdout) :
    Prog.Total (report doPrint false (do
      let initialAdmSet ← readPositives solver inVars (RaSet.initEmpty n)
      solveSepr ω.answer aaf grounded (some initialAdmSet)))
      (fun _ => DsprOpenPost aaf arg doPrint w₀ false) w := by
  have hset : ((positives m inVars).foldl RaSet.add (RaSet.initEmpty n)).toSet =
      selected (m.fill false) inVars := by
    rw [← positives_fill hin]
    exact toSet_foldl_positives hin
  have hsearch : ∀ w', Prog.Total (do
      let initialAdmSet ← readPositives solver inVars (RaSet.initEmpty n)
      solveSepr ω.answer aaf grounded (some initialAdmSet)) (fun _ w'' => ∃ text,
        DsprOpenText aaf arg false text ∧ w''.stdout = w'.stdout ++ text) w' := by
    intro w'
    rw [readPositives_of_sat hstate, pure_bind, hmodel]
    have hinit : ∀ s ∈ some ((positives m inVars).foldl RaSet.add (RaSet.initEmpty n)),
        aaf.framework.Admissible s.toSet ∧ aaf.framework.grounded ⊆ s.toSet ∧
          s.toSet.Nonempty := by
      rintro s hs
      cases hs
      rw [hset]
      exact ⟨hout.admissible, hout.grounded_subset, hout.nonempty⟩
    apply (total_solveSepr_open ω hg hinit w').mono
    rintro _ w'' ⟨line, ⟨E, ⟨hE, hsub⟩, hline⟩, hw''⟩
    refine ⟨line, ⟨E, ⟨hE, ?_⟩, hline⟩, hw''⟩
    apply hout.out _ hE.preferred
    rw [← hset]
    exact (hsub _ rfl).trans hE.admissible.subset_characteristic
  apply (total_report hsearch).mono
  intro _ w' hw'
  obtain ⟨P, hsub, hP⟩ := hout.admissible.exists_preferred
  exact ⟨iff_of_false Bool.false_ne_true fun hscep => hout.out P hP hsub (hscep P hP), hw'.of_eq hw⟩

theorem total_extensionTest_open (ω : SatOracle) (hv : LabelVars inVars outVars)
    {attAdmTest admTest : IpasirSolver} {m : PartialModel}
    (hadm : admTest.Describes (labels inVars outVars) fun b =>
      aaf.framework.AdmissibleLabelling b.1 b.2 ∧ ∅ ⊆ b.1)
    (hsatState : attAdmTest.state = .sat) (hmodel : attAdmTest.model = m)
    {Q : ℤ × IpasirSolver → World → Prop} {w : World}
    (hsat : ∀ (m' : PartialModel) w',
      (∀ υ, m'.Completion υ →
        aaf.framework.AdmissibleLabelling (selected υ inVars) (selected υ outVars) ∧
        arg ∈ selected υ inVars ∧ selected (m.fill false) inVars ⊆ selected υ inVars) →
      w'.stdout = w.stdout → Q (10, admTest.satisfied m') w')
    (hunsat : ∀ w', ¬ aaf.framework.Extendable ∅ arg (selected (m.fill false) inVars) →
      w'.stdout = w.stdout → Q (20, admTest.refuted) w') :
    Prog.Total (extensionTest ω.answer inVars arg attAdmTest admTest) Q w := by
  have hclosed : (admTest.assume (inVars arg)).openClause = [] := hadm.closed
  rw [extensionTest, satAssume_of_closed hadm.closed, pure_bind,
    assumePositives_of_sat hsatState hclosed, pure_bind, hmodel, ← positives_fill hv.in_pos]
  have hls : ∀ υ : Assignment,
      (∀ l ∈ inVars arg :: (positives (m.fill false).model inVars).map inVars, υ.lit l = true) ↔
        arg ∈ (labels inVars outVars υ).1 ∧
          selected (m.fill false) inVars ⊆ (labels inVars outVars υ).1 := by
    intro υ
    rw [List.forall_mem_cons, lit_positives hv.in_pos]
    rfl
  apply hadm.total_satSolve_assuming ω
    (inVars arg :: (positives (m.fill false).model inVars).map inVars)
    (A := fun b => arg ∈ b.1 ∧ selected (m.fill false) inVars ⊆ b.1) hls
  · intro m' w' hm' hw'
    apply hsat m' w' _ hw'
    intro υ hυ
    obtain ⟨⟨hlab, -⟩, harg, hsub⟩ := hm' υ hυ
    exact ⟨hlab, harg, hsub⟩
  · intro w' hno hw'
    exact hunsat w' (not_extendable_of_no_labelling (fun c hc => hc.elim) hno) hw'

theorem total_dsprRound_open (ω : SatOracle) (hg : Grounds aaf grounded)
    (hv : AttackTestVars aaf inVars outVars inAttackedVars outAttackedVars (4 * n + 1))
    (hcred : ∃ S, aaf.framework.Admissible S ∧ arg ∈ S)
    {st : IpasirSolver × IpasirSolver} {Ms : Set (Set (Fin n))} {w₀ w : World}
    (h : FudgeInv aaf ∅ arg (fun b => arg ∈ b.2.1) inVars outVars inAttackedVars outAttackedVars
      st Ms) (hw : w.stdout = w₀.stdout) :
    Prog.Total (dsprRound ω.answer aaf grounded arg doPrint inVars st) (LoopStep.post
      (fun st' w' => ((∃ Ms', FudgeInv aaf ∅ arg (fun b => arg ∈ b.2.1) inVars outVars
          inAttackedVars outAttackedVars st' Ms') ∧ w'.stdout = w₀.stdout) ∧
        attackersLeft inVars outVars inAttackedVars outAttackedVars st'.2 <
          attackersLeft inVars outVars inAttackedVars outAttackedVars st.2)
      (DsprOpenPost aaf arg doPrint w₀)) w := by
  apply Prog.Total.bind
  apply h.attAdmTest.total_satSolve_open ω
  · intro m w₁ _ hm hw₁
    -- the attacking set is the least one that the model leaves
    obtain ⟨hτ, hargτ⟩ := hm _ (m.completion_fill false)
    dsimp only
    rw [if_neg (by decide)]
    apply Prog.Total.bind
    apply total_extensionTest_open ω hv.attacker h.admTest rfl rfl
    · -- the attacking set can be extended: block the greatest extension that the model leaves
      intro m' w₂ hm' hw₂
      obtain ⟨hυ, hargυ, hsub⟩ := hm' _ (m'.completion_fill true)
      dsimp only
      rw [if_neg (by decide), addNegatives_of_sat rfl hv.attacker.in_ne, pure_bind,
        Prog.total_pure]
      obtain ⟨hinv, hlt⟩ := h.block hv.attacker ⟨hτ, hargτ⟩ hυ (Set.empty_subset _) hargυ hsub
      rw [negatives_fill hv.attacker.in_pos] at hinv hlt
      exact ⟨⟨⟨_, hinv.admTest.remodel m', hinv.attAdmTest.remodel m, hinv.blocked⟩,
        by rw [hw₂, hw₁, hw]⟩, hlt⟩
    · -- the attacking set is a counterexample
      intro w₂ hne hw₂
      dsimp only
      rw [if_pos rfl, printWitness, if_pos rfl]
      have hlab := hτ.attackTest.attacker
      have hnonempty : (selected (m.fill false) inVars).Nonempty := by
        obtain ⟨b, ⟨a, ha, -⟩, -⟩ := hτ.attackTest.attacks
        exact ⟨a, ha⟩
      have hout : StaysOut aaf arg (selected (m.fill false) inVars) :=
        ⟨hlab.admissible, hlab.grounded_in, hnonempty,
          not_sceptical_of_not_extendable (fun c hc => hc.elim) hne⟩
      have hw₀ : w₂.stdout = w₀.stdout := by rw [hw₂, hw₁, hw]
      apply Prog.Total.bind
      apply (total_dspr_no_open ω hg hv.attacker.in_pos rfl rfl hout hw₀).mono
      exact fun _ w₃ hw₃ => Prog.total_pure.2 hw₃
  · intro w₁ hno hw₁
    dsimp only
    rw [if_pos rfl]
    apply Prog.Total.bind
    apply (total_report_pure (P := DsprOpenText aaf arg true) rfl).mono
    intro _ w₂ hw₂
    apply Prog.total_pure.2
    refine ⟨iff_of_true rfl ?_, hw₂.of_eq (by rw [hw₁, hw])⟩
    apply sceptical_of_no_counterexample (fun c hc => hc.elim) hcred h.blocked
    exact fun b hb harg => hno b ⟨hb, harg⟩

theorem total_dspr_unaccepted_open (ω : SatOracle) (hg : Grounds aaf grounded)
    (hnot : ∀ P, aaf.framework.Preferred P → arg ∉ P) {w₀ w : World}
    (hw : w.stdout = w₀.stdout) :
    Prog.Total (report doPrint false (solveSepr ω.answer aaf grounded none))
      (fun _ => DsprOpenPost aaf arg doPrint w₀ false) w := by
  have hsearch : ∀ w', Prog.Total (solveSepr ω.answer aaf grounded none) (fun _ w'' => ∃ text,
      DsprOpenText aaf arg false text ∧ w''.stdout = w'.stdout ++ text) w' := by
    intro w'
    apply (total_solveSepr_open ω hg (by simp) w').mono
    rintro _ w'' ⟨line, ⟨E, ⟨hE, -⟩, hline⟩, hw''⟩
    exact ⟨line, ⟨E, ⟨hE, hnot _ hE.preferred⟩, hline⟩, hw''⟩
  apply (total_report hsearch).mono
  intro _ w' hw'
  obtain ⟨P, hP⟩ := exists_preferred (F := aaf.framework)
  exact ⟨iff_of_false Bool.false_ne_true fun hscep => hnot P hP (hscep P hP), hw'.of_eq hw⟩

/-- With any solver DS-PR decides sceptical acceptance; a NO comes with a set that defends a
preferred extension without the argument. -/
theorem total_solveDspr_open (ω : SatOracle) (hg : Grounds aaf grounded) (w : World) :
    Prog.Total (solveDspr ω.answer aaf grounded arg doPrint) (DsprOpenPost aaf arg doPrint w) w := by
  have hv := attackTestVars_numberPairs aaf
  have hadm := (addAdmTestClauses_encodes hv.attacker hg).describes hv.attacker
  rw [solveDspr]
  dsimp only
  rw [satAssume_of_closed hadm.closed, pure_bind]
  apply Prog.Total.bind
  apply hadm.total_satSolve_assuming ω [(numberPairs n 1).1 arg] (A := fun b => arg ∈ b.1)
    (fun τ => by simp)
  · intro m w₁ hm hw₁
    obtain ⟨hτ, harg⟩ := hm _ (m.completion_fill true)
    dsimp only
    rw [if_neg (by decide), addNegatives_of_sat rfl hv.attacker.in_ne, pure_bind]
    have hadm₁ := hadm.satisfied m
    rw [satAssume_of_closed hadm₁.closed, pure_bind]
    apply Prog.Total.bind
    apply hadm₁.total_satSolve_assuming ω [(numberPairs n 1).2.1 arg] (A := fun b => arg ∈ b.2)
      (fun τ => by simp)
    · intro m' w₂ hm' hw₂
      obtain ⟨hυ, hout⟩ := hm' _ (m'.completion_fill false)
      dsimp only
      rw [if_pos rfl]
      have hattacked := hυ.out_attacked hout
      have hnonempty : (selected (m'.fill false) (numberPairs n 1).1).Nonempty := by
        obtain ⟨a, ha, -⟩ := hattacked
        exact ⟨a, ha⟩
      have hnot : StaysOut aaf arg (selected (m'.fill false) (numberPairs n 1).1) := by
        refine ⟨hυ.admissible, hυ.grounded_in, hnonempty, fun P hP hsub hargP => ?_⟩
        exact hP.prop.conflictFree.notMem_attackedBy hargP (attackedBy_mono hsub hattacked)
      apply Prog.Total.bind
      apply (total_dspr_no_open ω hg hv.attacker.in_pos rfl rfl hnot (hw₂.trans hw₁)).mono
      exact fun _ w₃ hw₃ => Prog.total_pure.2 hw₃
    · intro w₂ _ hw₂
      dsimp only
      rw [if_neg (by decide), satAddClause1_eq (hv.attacked.in_ne arg)]
      have hcred : ∃ S, aaf.framework.Admissible S ∧ arg ∈ S := ⟨_, hτ.admissible, harg⟩
      have hstart := dsprStart_inv hv hg hadm₁.refuted hτ.admissible harg
      rw [negatives_fill hv.attacker.in_pos] at hstart
      exact Prog.Total.loop
        (fun st w' => (∃ Ms, FudgeInv aaf ∅ arg (fun b => arg ∈ b.2.1) _ _ _ _ st Ms) ∧
          w'.stdout = w.stdout)
        (fun st => attackersLeft _ _ _ _ st.2)
        (fun st w' h => h.1.elim fun Ms hinv => total_dsprRound_open ω hg hv hcred hinv h.2)
        ⟨⟨_, hstart⟩, by rw [hw₂, hw₁]⟩
  · intro w₁ hno hw₁
    dsimp only
    rw [if_pos rfl, printWitness, if_pos rfl]
    have hnot : ∀ P, aaf.framework.Preferred P → arg ∉ P := fun P hP hargP =>
      hno (P, _) (hP.prop.labelling hP.grounded_subset) hargP
    apply Prog.Total.bind
    apply (total_dspr_unaccepted_open ω hg hnot hw₁).mono
    exact fun _ w₂ hw₂ => Prog.total_pure.2 hw₂

end Dspr

end TaasFudge
