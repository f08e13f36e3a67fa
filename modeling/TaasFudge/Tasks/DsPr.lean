import TaasFudge.Sat.Preferring
import TaasFudge.Taas.Grounded
import TaasFudge.Tasks.AttackTest
import TaasFudge.Tasks.SePr

/-! # DS-PR

The FUDGE loop: an admissible set attacking an admissible set with the argument is
either extendable by the argument, and then blocked, or a counterexample.
-/

namespace TaasFudge

open Dimacs

variable {n : ℕ}

section Program
variable (ω : Oracle) (aaf : AAF n) (grounded : Labeling) (arg : Fin n) (doPrint : Bool)

/-- A round of the main loop over `solver_admTest` and `solver_attAdmTest`. -/
def dsprRound (inVars : Fin n → ℤ) (st : IpasirSolver × IpasirSolver) :
    Prog World (LoopStep (IpasirSolver × IpasirSolver) Bool) := do
  let (sat, attAdmTest) ← satSolve ω st.2
  if sat = 20 then
    report doPrint true (pure ())
    pure (.exit true)
  else
    let (sat, admTest) ← extensionTest ω inVars arg attAdmTest st.1
    if sat = 20 then
      report doPrint false (if printWitness then do
        let initialAdmSet ← readPositives attAdmTest inVars (RaSet.initEmpty n)
        solveSepr ω aaf grounded (some initialAdmSet)
      else pure ())
      pure (.exit false)
    else
      let attAdmTest ← addNegatives admTest inVars attAdmTest
      pure (.again (admTest, attAdmTest))

def solveDspr : Prog World Bool := do
  let (inVars, outVars, idx) := numberPairs n 1
  let (inAttackedVars, outAttackedVars, _) := numberPairs n idx
  let admTest := (addAdmTestClauses satInit inVars outVars aaf grounded).2
  let attAdmTest := attAdmTest inVars outVars inAttackedVars outAttackedVars aaf grounded
  -- is there an admissible labelling setting the argument IN?
  let admTest ← satAssume admTest (inVars arg)
  let (sat, admTest) ← satSolve ω admTest
  if sat = 20 then
    report doPrint false (if printWitness then solveSepr ω aaf grounded none else pure ())
    pure false
  else
    let attAdmTest ← addNegatives admTest inVars attAdmTest
    -- is there an admissible labelling attacking the argument?
    let admTest ← satAssume admTest (outVars arg)
    let (sat, admTest) ← satSolve ω admTest
    if sat = 10 then
      report doPrint false (do
        let initialAdmSet ← readPositives admTest inVars (RaSet.initEmpty n)
        solveSepr ω aaf grounded (some initialAdmSet))
      pure false
    else
      let attAdmTest := satAddClause1 attAdmTest (inAttackedVars arg)
      Prog.loop (dsprRound ω aaf grounded arg doPrint inVars) (admTest, attAdmTest)

end Program

section Shape
variable {γ : Type} (ω : Oracle) (aaf : AAF n) (grounded : Labeling) (arg : Fin n) (doPrint : Bool)
  (unaccepted : Prog World γ) (no : (Fin n → ℤ) → IpasirSolver → Prog World γ)
  (yes : Prog World γ)

/-- A round of the main loop that does `no` or `yes` at its end. -/
def dsprRoundWith (inVars : Fin n → ℤ) (st : IpasirSolver × IpasirSolver) :
    Prog World (LoopStep (IpasirSolver × IpasirSolver) γ) := do
  let (sat, attAdmTest) ← satSolve ω st.2
  if sat = 20 then
    let c ← yes
    pure (.exit c)
  else
    let (sat, admTest) ← extensionTest ω inVars arg attAdmTest st.1
    if sat = 20 then
      let c ← no inVars attAdmTest
      pure (.exit c)
    else
      let attAdmTest ← addNegatives admTest inVars attAdmTest
      pure (.again (admTest, attAdmTest))

/-- The decision, with `unaccepted` where no admissible set contains the argument. -/
def dsprWith : Prog World γ := do
  let (inVars, outVars, idx) := numberPairs n 1
  let (inAttackedVars, outAttackedVars, _) := numberPairs n idx
  let admTest := (addAdmTestClauses satInit inVars outVars aaf grounded).2
  let attAdmTest := attAdmTest inVars outVars inAttackedVars outAttackedVars aaf grounded
  let admTest ← satAssume admTest (inVars arg)
  let (sat, admTest) ← satSolve ω admTest
  if sat = 20 then unaccepted
  else
    let attAdmTest ← addNegatives admTest inVars attAdmTest
    let admTest ← satAssume admTest (outVars arg)
    let (sat, admTest) ← satSolve ω admTest
    if sat = 10 then no inVars admTest
    else
      let attAdmTest := satAddClause1 attAdmTest (inAttackedVars arg)
      Prog.loop (dsprRoundWith ω arg no yes inVars) (admTest, attAdmTest)

theorem solveDspr_eq_dsprWith : solveDspr ω aaf grounded arg doPrint =
    dsprWith ω aaf grounded arg
      (do
        report doPrint false (solveSepr ω aaf grounded none)
        pure false)
      (fun inVars solver => do
        report doPrint false (do
          let initialAdmSet ← readPositives solver inVars (RaSet.initEmpty n)
          solveSepr ω aaf grounded (some initialAdmSet))
        pure false)
      (do
        report doPrint true (pure ())
        pure true) := by
  have hround : dsprRound ω aaf grounded arg doPrint = dsprRoundWith ω arg
      (fun inVars solver => do
        report doPrint false (do
          let initialAdmSet ← readPositives solver inVars (RaSet.initEmpty n)
          solveSepr ω aaf grounded (some initialAdmSet))
        pure false)
      (do
        report doPrint true (pure ())
        pure true) := by
    funext inVars st
    simp only [dsprRound, dsprRoundWith, bind_assoc, pure_bind]
    rfl
  rw [solveDspr, hround]
  rfl

end Shape

section Correctness
variable {aaf : AAF n} {grounded : Labeling} {arg : Fin n} {doPrint : Bool}
  {inVars outVars inAttackedVars outAttackedVars : Fin n → ℤ}

def DsprText (aaf : AAF n) (arg : Fin n) (r : Bool) (text : String) : Prop :=
  if r then text = ""
  else GivesWitness aaf (fun E => aaf.framework.Preferred E ∧ arg ∉ E) text

def DsprPost (aaf : AAF n) (arg : Fin n) (doPrint : Bool) (w : World) (r : Bool) (w' : World) :
    Prop :=
  (r = true ↔ aaf.framework.Sceptical arg) ∧ Reported doPrint r (DsprText aaf arg r) w w'

/-- Why the answer is NO: the argument stays outside an admissible set, which attacks it unless no
admissible set does. -/
structure DsprNo (aaf : AAF n) (arg : Fin n) (S : Set (Fin n)) : Prop where
  accepted : ∃ T, aaf.framework.Admissible T ∧ arg ∈ T
  admissible : aaf.framework.Admissible S
  outside : ∀ P, aaf.framework.Preferred P → S ⊆ P → arg ∉ P
  attacks : arg ∈ aaf.framework.attackedBy S ∨
    ∀ T, aaf.framework.Admissible T → arg ∉ aaf.framework.attackedBy T

/-- What a preference for some dissenting extension comes to: the model has the property preferred. -/
def DsprPicks (ω : TotalOracle) (aaf : AAF n) (arg : Fin n) (inVars outVars : Fin n → ℤ)
    (τ : Assignment) : Prop :=
  ∀ G E, ω.Prefers G → aaf.framework.Dissents arg E →
    (∀ υ, labels inVars outVars υ = (E, aaf.framework.attackedBy E) → G υ) → G τ

theorem FudgeInv.dissents {st : IpasirSolver × IpasirSolver} {Ms : Set (Set (Fin n))}
    (h : FudgeInv aaf ∅ arg (fun b => arg ∈ b.2.1) inVars outVars inAttackedVars outAttackedVars
      st Ms) (hcred : ∃ T, aaf.framework.Admissible T ∧ arg ∈ T) {E : Set (Fin n)}
    (hE : aaf.framework.Dissents arg E) :
    ∃ c, Unblocked aaf ∅ Ms ((E, aaf.framework.attackedBy E), c) ∧ arg ∈ c.1 := by
  obtain ⟨T, hT, hargT⟩ := hcred
  obtain ⟨P, hTP, hP⟩ := hT.exists_preferred
  have hattacks := hE.attacks_admissible hP.prop (hTP hargT)
  refine ⟨(P, _), ⟨⟨hE.preferred.prop.labelling hE.preferred.grounded_subset,
    hP.prop.labelling hP.grounded_subset, hattacks⟩, Set.empty_subset _, Set.empty_subset _, ?_⟩,
    hTP hargT⟩
  intro M hM hsub
  obtain ⟨hadm, hargM⟩ := h.blocked M hM
  rw [← hE.preferred.eq_of_subset hadm.admissible hsub] at hargM
  exact hE.notMem hargM

theorem total_dspr_witness (ω : TotalOracle) (hg : Grounds aaf grounded)
    (hin : ∀ i, 0 < inVars i) {solver : IpasirSolver} {τ : Assignment}
    (hstate : solver.state = .sat) (hmodel : solver.model = τ.model)
    (h : DsprNo aaf arg (selected τ inVars)) (w : World) :
    Prog.Total (do
      let initialAdmSet ← readPositives solver inVars (RaSet.initEmpty n)
      seprShown ω.answer aaf grounded (some initialAdmSet)) (fun s w' =>
        (aaf.framework.Preferred s.set ∧ selected τ inVars ⊆ s.set) ∧
          s.spelling ≠ .numbered ∧ w'.stdout = w.stdout) w := by
  rw [readPositives_of_sat hstate, pure_bind, hmodel]
  have hset := toSet_foldl_positives (τ := τ) hin
  apply (total_seprShown_preferred ω hg _ w).mono
  · rintro s w' ⟨⟨hpref, hsub⟩, hs⟩
    exact ⟨⟨hpref, hset ▸ hsub _ rfl⟩, hs⟩
  · rintro s hs
    cases hs
    rw [hset]
    exact h.admissible

theorem total_dspr_no (ω : TotalOracle) (hg : Grounds aaf grounded)
    (hin : ∀ i, 0 < inVars i) {solver : IpasirSolver} {τ : Assignment}
    (hstate : solver.state = .sat) (hmodel : solver.model = τ.model)
    (h : DsprNo aaf arg (selected τ inVars)) {w₀ w : World} (hw : w.stdout = w₀.stdout) :
    Prog.Total (do
      report doPrint false (do
        let initialAdmSet ← readPositives solver inVars (RaSet.initEmpty n)
        solveSepr ω.answer aaf grounded (some initialAdmSet))
      pure false) (DsprPost aaf arg doPrint w₀) w := by
  apply Prog.Total.bind
  apply (total_report (P := DsprText aaf arg false) _).mono
  · intro _ w' hw'
    obtain ⟨P, hsub, hP⟩ := h.admissible.exists_preferred
    have hnot : ¬ aaf.framework.Sceptical arg :=
      fun hscep => h.outside P hP hsub (hscep P hP)
    exact Prog.total_pure.2 ⟨iff_of_false Bool.false_ne_true hnot, hw'.of_eq hw⟩
  · intro w'
    simp only [solveSepr_eq, ← bind_assoc]
    apply Prog.Total.bind
    apply (total_dspr_witness ω hg hin hstate hmodel h w').mono
    rintro s w'' ⟨⟨hpref, hsub⟩, hspelling, hw''⟩
    apply Prog.total_atomic.2
    exact ⟨_, ⟨s.set, ⟨hpref, h.outside s.set hpref hsub⟩, s.witnessLine hspelling aaf⟩,
      by rw [hw'']⟩

/-- The loop starts with one admissible set blocked, the one found with the argument. -/
theorem dsprStart_inv (hv : AttackTestVars aaf inVars outVars inAttackedVars outAttackedVars
      (4 * n + 1)) (hg : Grounds aaf grounded) {admTest : IpasirSolver} {τ : Assignment}
    (hadm : admTest.Describes (labels inVars outVars)
      fun b => aaf.framework.AdmissibleLabelling b.1 b.2)
    (hτ : aaf.framework.Admissible (selected τ inVars)) (harg : arg ∈ selected τ inVars) :
    FudgeInv aaf ∅ arg (fun b => arg ∈ b.2.1) inVars outVars inAttackedVars outAttackedVars
      (admTest, ((attAdmTest inVars outVars inAttackedVars outAttackedVars aaf grounded).push
        ((negatives τ.model inVars).map inVars)).push [inAttackedVars arg])
      {selected τ inVars} := by
  refine ⟨hadm.congr fun b => by simp, ?_, ?_⟩
  · refine (((attAdmTest_describes hv hg).push (P := fun b => ¬ b.1.1 ⊆ selected τ inVars)
      fun τ' => satisfies_negatives hv.attacker.in_pos).push (P := fun b => arg ∈ b.2.1)
      fun τ' => by simp [twoLabels]).congr fun b => and_congr_left fun _ => ?_
    constructor
    · rintro ⟨hb, hnot⟩
      exact ⟨hb, Set.empty_subset _, Set.empty_subset _, fun M hM => hM ▸ hnot⟩
    · exact fun hb => ⟨hb.attackTest, hb.not_blocked _ rfl⟩
  · rintro M rfl
    exact ⟨⟨hτ, Set.empty_subset _⟩, harg⟩

theorem total_dsprRoundWith (ω : TotalOracle)
    (hv : AttackTestVars aaf inVars outVars inAttackedVars outAttackedVars (4 * n + 1))
    (hcred : ∃ S, aaf.framework.Admissible S ∧ arg ∈ S)
    (hattacks : ∀ T, aaf.framework.Admissible T → arg ∉ aaf.framework.attackedBy T) {γ : Type}
    {no : (Fin n → ℤ) → IpasirSolver → Prog World γ} {yes : Prog World γ} {Q : γ → World → Prop}
    {w₀ : World} (hno : ∀ (solver : IpasirSolver) (τ : Assignment) w, solver.state = .sat →
      solver.model = τ.model → DsprNo aaf arg (selected τ inVars) →
        DsprPicks ω aaf arg inVars outVars τ → w.stdout = w₀.stdout →
          Prog.Total (no inVars solver) Q w)
    (hyes : ∀ w, aaf.framework.Sceptical arg → w.stdout = w₀.stdout → Prog.Total yes Q w)
    {st : IpasirSolver × IpasirSolver} {Ms : Set (Set (Fin n))} {w : World}
    (h : FudgeInv aaf ∅ arg (fun b => arg ∈ b.2.1) inVars outVars inAttackedVars outAttackedVars
      st Ms) (hw : w.stdout = w₀.stdout) :
    Prog.Total (dsprRoundWith ω.answer arg no yes inVars st) (LoopStep.post
      (fun st' w' => ((∃ Ms', FudgeInv aaf ∅ arg (fun b => arg ∈ b.2.1) inVars outVars
          inAttackedVars outAttackedVars st' Ms') ∧ w'.stdout = w₀.stdout) ∧
        attackersLeft inVars outVars inAttackedVars outAttackedVars st'.2 <
          attackersLeft inVars outVars inAttackedVars outAttackedVars st.2) Q) w := by
  refine Prog.Total.bind (h.attAdmTest.total_picked ω [] (A := fun _ => True)
    (fun τ => by simp) ?_ ?_)
  · rintro τ ⟨hτ, hargτ⟩ - hpick
    dsimp only
    rw [if_neg (by decide)]
    refine Prog.Total.bind (total_extensionTest ω hv.attacker (fun c hc => hc.elim) h.admTest
      (τ := τ) rfl rfl ?_ ?_)
    · -- the attacking set can be extended: block the extension
      intro υ w₂ hυ hC hargυ hsub hw₂
      dsimp only
      rw [if_neg (by decide), addNegatives_of_sat rfl hv.attacker.in_ne, pure_bind,
        Prog.total_pure]
      obtain ⟨hinv, hlt⟩ := h.block hv.attacker ⟨hτ, hargτ⟩ hυ hC hargυ hsub
      exact ⟨⟨⟨_, hinv⟩, hw₂.trans hw⟩, hlt⟩
    · -- the attacking set is a counterexample
      intro w₂ hne hw₂
      dsimp only
      rw [if_pos rfl]
      have hout := Framework.not_sceptical_of_not_extendable (fun c hc => hc.elim) hne
      have hpicks : DsprPicks ω aaf arg inVars outVars τ := by
        intro G E hω hE hG
        obtain ⟨c, hc, hargc⟩ := h.dissents hcred hE
        apply hpick G _ hω ⟨hc, hargc⟩ trivial
        exact fun υ hυ => hG υ (congrArg Prod.fst hυ)
      apply Prog.Total.bind
      apply (hno _ τ w₂ rfl rfl ⟨hcred, hτ.attackTest.attacker.admissible, hout, .inr hattacks⟩
        hpicks (hw₂.trans hw)).mono
      exact fun c w₃ hc => Prog.total_pure.2 hc
  · intro hnone
    dsimp only
    rw [if_pos rfl]
    apply Prog.Total.bind
    apply (hyes { w with calls := w.calls + 1 } _ hw).mono
    · exact fun c w₂ hc => Prog.total_pure.2 hc
    · exact sceptical_of_no_counterexample (fun c hc => hc.elim) hcred h.blocked
        fun b hb harg => hnone b ⟨hb, harg⟩ trivial

theorem total_dsprWith (ω : TotalOracle) (hg : Grounds aaf grounded) {γ : Type}
    {unaccepted : Prog World γ} {no : (Fin n → ℤ) → IpasirSolver → Prog World γ}
    {yes : Prog World γ} {Q : γ → World → Prop} {w : World}
    (hunaccepted : ∀ w', (∀ P, aaf.framework.Preferred P → arg ∉ P) → w'.stdout = w.stdout →
      Prog.Total unaccepted Q w')
    (hno : ∀ (solver : IpasirSolver) (τ : Assignment) w', solver.state = .sat →
      solver.model = τ.model → DsprNo aaf arg (selected τ (numberPairs n 1).1) →
        DsprPicks ω aaf arg (numberPairs n 1).1 (numberPairs n 1).2.1 τ →
          w'.stdout = w.stdout → Prog.Total (no (numberPairs n 1).1 solver) Q w')
    (hyes : ∀ w', aaf.framework.Sceptical arg → w'.stdout = w.stdout → Prog.Total yes Q w') :
    Prog.Total (dsprWith ω.answer aaf grounded arg unaccepted no yes) Q w := by
  have hv := attackTestVars_numberPairs aaf
  rcases hnp : numberPairs n 1 with ⟨inVars, outVars, idx⟩
  rcases hnp' : numberPairs n idx with ⟨inAttackedVars, outAttackedVars, idx'⟩
  simp only [hnp, hnp'] at hv hno
  have hadm := (addAdmTestClauses_encodes hv.attacker hg).describes hv.attacker
  rw [dsprWith, hnp]
  dsimp only
  rw [hnp']
  dsimp only
  rw [satAssume_of_closed hadm.closed, pure_bind]
  refine Prog.Total.bind (hadm.total_satSolve ω [inVars arg] (A := fun b => arg ∈ b.1)
    (fun τ => by simp) ?_ ?_)
  · intro τ w₁ hτ harg hw₁
    dsimp only
    rw [if_neg (by decide), addNegatives_of_sat rfl hv.attacker.in_ne, pure_bind]
    have hadm₁ := hadm.satisfied τ.model
    rw [satAssume_of_closed hadm₁.closed, pure_bind]
    have hcred : ∃ S, aaf.framework.Admissible S ∧ arg ∈ S := ⟨_, hτ.admissible, harg⟩
    refine Prog.Total.bind (hadm₁.total_picked ω [outVars arg] (A := fun b => arg ∈ b.2)
      (fun τ => by simp) ?_ ?_)
    · intro υ hυ hout hpick
      dsimp only
      rw [if_pos rfl]
      have hattacked := hυ.out_attacked hout
      apply hno _ υ { w₁ with calls := w₁.calls + 1 } rfl rfl
        ⟨hcred, hυ.admissible, _, .inl hattacked⟩ _ hw₁
      · intro P hP hsub hargP
        exact hP.prop.conflictFree.notMem_attackedBy hargP (Framework.attackedBy_mono hsub hattacked)
      · intro G E hω hE hG
        exact hpick G _ hω (hE.preferred.prop.labelling hE.preferred.grounded_subset)
          (hE.attacks hcred ⟨_, hυ.admissible, hattacked⟩) hG
    · intro hnone
      dsimp only
      rw [if_neg (by decide), satAddClause1_eq (hv.attacked.in_ne arg)]
      have hattacks : ∀ T, aaf.framework.Admissible T → arg ∉ aaf.framework.attackedBy T := by
        intro T hT hargT
        obtain ⟨P, hTP, hP⟩ := hT.exists_preferred
        exact hnone (P, _) (hP.prop.labelling hP.grounded_subset)
          (Framework.attackedBy_mono hTP hargT)
      refine Prog.Total.loop
        (fun st w' => (∃ Ms, FudgeInv aaf ∅ arg (fun b => arg ∈ b.2.1) inVars outVars
          inAttackedVars outAttackedVars st Ms) ∧ w'.stdout = w.stdout)
        (fun st => attackersLeft inVars outVars inAttackedVars outAttackedVars st.2)
        (fun st w' ⟨⟨Ms, h⟩, hw'⟩ => total_dsprRoundWith ω hv hcred hattacks hno hyes h hw')
        ⟨⟨_, dsprStart_inv hv hg hadm₁.refuted hτ.admissible harg⟩, hw₁⟩
  · intro w₁ hnone hw₁
    dsimp only
    rw [if_pos rfl]
    apply hunaccepted w₁ _ hw₁
    exact fun P hP hargP => hnone (P, _) (hP.prop.labelling hP.grounded_subset) hargP

/-- The answer NO when no admissible set contains the argument: any preferred extension shows it. -/
theorem total_dspr_unaccepted (ω : TotalOracle) (hg : Grounds aaf grounded)
    (hnot : ∀ P, aaf.framework.Preferred P → arg ∉ P) {w₀ w : World}
    (hw : w.stdout = w₀.stdout) :
    Prog.Total (do
      report doPrint false (solveSepr ω.answer aaf grounded none)
      pure false) (DsprPost aaf arg doPrint w₀) w := by
  apply Prog.Total.bind
  apply (total_report (P := DsprText aaf arg false) fun w' =>
    (total_solveSepr ω hg (by simp) w').mono ?_).mono
  · intro _ w' hw'
    refine Prog.total_pure.2 ⟨iff_of_false Bool.false_ne_true fun hscep => ?_, hw'.of_eq hw⟩
    obtain ⟨P, hP⟩ := Framework.exists_preferred (F := aaf.framework)
    exact hnot P hP (hscep P hP)
  · rintro _ w'' ⟨line, ⟨E, ⟨hE, -⟩, hline⟩, hw''⟩
    exact ⟨line, ⟨E, ⟨hE, hnot E hE⟩, hline⟩, hw''⟩

/-- DS-PR decides sceptical acceptance, and a NO comes with a preferred extension that does
not contain the argument. -/
theorem total_solveDspr (ω : TotalOracle) (hg : Grounds aaf grounded) (w : World) :
    Prog.Total (solveDspr ω.answer aaf grounded arg doPrint) (DsprPost aaf arg doPrint w) w := by
  have hin := (labelVars_numberPairs n Int.one_pos).in_pos
  rw [solveDspr_eq_dsprWith]
  apply total_dsprWith ω hg
  · exact fun w' hnot hw' => total_dspr_unaccepted ω hg hnot hw'
  · exact fun solver τ w' hstate hmodel h _ hw' => total_dspr_no ω hg hin hstate hmodel h hw'
  · intro w' hscep hw'
    apply Prog.Total.bind
    apply (total_report_pure (P := DsprText aaf arg true) rfl).mono
    exact fun _ w'' hw'' => Prog.total_pure.2 ⟨iff_of_true rfl hscep, hw''.of_eq hw'⟩

/-- DS-PR decides membership in every preferred extension; a NO comes with one that does not
contain the argument. -/
theorem solveDspr_decides (ω : TotalOracle) (aaf : AAF n) (arg : Fin n) (doPrint : Bool)
    (w : World) :
    Prog.Total (solveDspr ω.answer aaf (computeGrounded aaf).1 arg doPrint) (fun r w' =>
      (r = true ↔ ∀ P, aaf.framework.Preferred P → arg ∈ P) ∧
      (r = false → doPrint = true → ∃ E line, aaf.framework.Preferred E ∧ arg ∉ E ∧
        WitnessLine aaf E line ∧ w'.stdout = w.stdout ++ ("NO\n" ++ line))) w := by
  refine (total_solveDspr ω (computeGrounded_represents aaf) w).mono ?_
  rintro r w' ⟨hr, htext⟩
  refine ⟨hr, ?_⟩
  rintro rfl rfl
  obtain ⟨text, ⟨E, ⟨hE, hnot⟩, hline⟩, hw⟩ := htext
  exact ⟨E, text, hE, hnot, hline, hw⟩

end Correctness

end TaasFudge
