import TaasFudge.Sat.Protocol
import TaasFudge.Tasks.Direct
import TaasFudge.Tasks.DsId
import TaasFudge.Tasks.DsPr
import TaasFudge.Tasks.EaPr
import TaasFudge.Tasks.SeRange

/-! # Tasks that respect the call protocol

Each loop keeps its objects closed and reads a model before the object it belongs to
is changed again.
-/

namespace TaasFudge

open Dimacs Prog

variable {n : ℕ}

section Encoders
variable {solver : IpasirSolver} {inVars outVars : Fin n → ℤ} {aaf : AAF n} {grounded : Labeling}

theorem addAdmTestClauses_openClause (hv : LabelVars inVars outVars)
    (h : solver.openClause = []) :
    (addAdmTestClauses solver inVars outVars aaf grounded).2.openClause = [] := by
  rw [addAdmTestClauses_eq hv]
  exact IpasirSolver.pushAll_openClause h _

theorem addStbTestClauses_openClause (h : solver.openClause = []) :
    (addStbTestClauses solver inVars aaf grounded).openClause = [] := by
  refine List.foldlRecOn (motive := fun s : IpasirSolver => s.openClause = []) _ _ h
    fun s hs i _ => ?_
  dsimp only
  split_ifs
  any_goals rfl
  all_goals
    refine List.foldlRecOn (motive := fun p : IpasirSolver × List ℤ × Bool => p.1.openClause = [])
      _ _ ?_ fun _ _ _ _ => rfl
  · rfl
  · rfl
  · exact hs

theorem addComTestClauses_openClause (h : solver.openClause = []) :
    (addComTestClauses solver inVars outVars aaf grounded).openClause = [] := by
  refine List.foldlRecOn (motive := fun s : IpasirSolver => s.openClause = []) _ _ h
    fun s _ i _ => ?_
  dsimp only
  split_ifs <;> rfl

theorem attAdmTest_openClause {inAttackedVars outAttackedVars : Fin n → ℤ}
    (aaf : AAF n) (grounded : Labeling) : 
    (attAdmTest inVars outVars inAttackedVars outAttackedVars aaf grounded).openClause = [] := rfl

end Encoders

section Reading
variable {solver other : IpasirSolver} {vars : Fin n → ℤ}

theorem respects_satPos (h : solver.state = .sat) (v : ℤ) :
    Respects (satPos solver v) fun _ => True := by
  rw [satPos_of_sat h]
  exact Keeps.pure trivial

theorem respects_satNeg (h : solver.state = .sat) (v : ℤ) :
    Respects (satNeg solver v) fun _ => True := by
  rw [satNeg_of_sat h]
  exact Keeps.pure trivial

theorem respects_satEitherPos (h : solver.state = .sat) (v₁ v₂ : ℤ) :
    Respects (satEitherPos solver v₁ v₂) fun _ => True :=
  (respects_satPos h v₁).orM (respects_satPos h v₂)

theorem respects_readPositives (h : solver.state = .sat) (s : RaSet n) :
    Respects (readPositives solver vars s) fun _ => True := by
  rw [readPositives_of_sat h]
  exact Keeps.pure trivial

theorem respects_assumePositives (h : solver.state = .sat) (hc : other.openClause = []) :
    Respects (assumePositives solver vars other) fun s => s.openClause = [] := by
  refine Keeps.foldlM (fun s : IpasirSolver => s.openClause = []) _ (fun s i hs => ?_) hc
  refine (respects_satPos h _).bind fun _ _ => ?_
  split_ifs
  · exact respects_satAssume hs _
  · exact Keeps.pure hs

theorem respects_addNegatives (h : solver.state = .sat) :
    Respects (addNegatives solver vars other) fun s => s.openClause = [] := by
  refine (Keeps.foldlM (fun _ => True) _ (fun _ _ _ => ?_) trivial).bind fun s _ =>
    Keeps.pure (satAdd_zero_openClause s)
  exact (respects_satNeg h _).bind fun _ _ => Keeps.pure trivial

theorem respects_readNegatives (h : solver.state = .sat) :
    Respects (readNegatives solver vars) fun _ => True :=
  Keeps.foldlM (fun _ => True) _
    (fun _ _ _ => (respects_satNeg h _).bind fun _ _ => Keeps.pure trivial) trivial

theorem respects_printModel (h : solver.state = .sat) (name : Fin n → String) :
    Respects (printModel solver vars name) fun _ => True := by
  refine (respects_printf _).bind fun _ _ =>
    (Keeps.foldlM (fun _ => True) _ (fun _ _ _ => ?_) trivial).bind fun _ _ => respects_printf _
  refine (respects_satPos h _).bind fun _ _ => ?_
  split_ifs
  · exact respects_printf _
  · exact Keeps.pure trivial

theorem respects_report {doPrint b : Bool} {witness : Prog World Unit}
    (h : Respects witness fun _ => True) : Respects (report doPrint b witness) fun _ => True := by
  cases doPrint with
  | false => exact Keeps.pure trivial
  | true => exact (respects_printf _).bind fun _ _ => h

theorem respects_answer (doPrint b : Bool) :
    Respects (report doPrint b (pure ())) fun _ => True := respects_report (Keeps.pure trivial)

end Reading

section Direct
variable (ω : SatOracle) (aaf : AAF n) (grounded : Labeling) (arg : Fin n) (doPrint : Bool)

/-- A final report, with the model printed as a witness when there is one. -/
theorem respects_verdict {r : ℤ × IpasirSolver} {vars : Fin n → ℤ} (hr : Searched r)
    (doPrint b : Bool) :
    Respects (if r.1 = 20 then do
        report doPrint b (pure ())
        pure b
      else do
        report doPrint (!b) (if printWitness then printModel r.2 vars argNumber else pure ())
        pure !b) fun _ => True := by
  simp only [printWitness, ↓reduceIte]
  split_ifs with h
  · exact (respects_answer _ _).bind fun _ _ => Keeps.pure trivial
  · exact (respects_report (respects_printModel (hr.2 h) _)).bind fun _ _ => Keeps.pure trivial

theorem respects_solveDcco :
    Respects (solveDcco ω.answer aaf grounded arg doPrint) fun _ => True := by
  rw [solveDcco]
  exact (respects_satAssume (addComTestClauses_openClause rfl) _).bind fun s hs =>
    (respects_satSolve ω hs).bind fun r hr => respects_verdict hr doPrint false

theorem respects_solveDcst :
    Respects (solveDcst ω.answer aaf grounded arg doPrint) fun _ => True := by
  rw [solveDcst]
  exact (respects_satAssume (addStbTestClauses_openClause rfl) _).bind fun s hs =>
    (respects_satSolve ω hs).bind fun r hr => respects_verdict hr doPrint false

theorem respects_solveSest : Respects (solveSest ω.answer aaf grounded) fun _ => True := by
  rw [solveSest]
  refine (respects_satSolve ω (addStbTestClauses_openClause rfl)).bind fun r hr => ?_
  dsimp only
  split_ifs with h
  · exact respects_printf _
  · exact respects_printModel (hr.2 h) _

theorem respects_solveDsst :
    Respects (solveDsst ω.answer aaf grounded arg doPrint) fun _ => True := by
  rw [solveDsst]
  refine (respects_satSolve ω (addStbTestClauses_openClause rfl)).bind fun r hr => ?_
  simp only [printWitness, ↓reduceIte]
  split_ifs with h hin hout
  · exact (respects_answer _ _).bind fun _ _ => Keeps.pure trivial
  · exact (respects_answer _ _).bind fun _ _ => Keeps.pure trivial
  · exact (respects_report (respects_printModel (hr.2 h) _)).bind fun _ _ => Keeps.pure trivial
  · exact (respects_satAssume hr.1 _).bind fun s hs =>
      (respects_satSolve ω hs).bind fun r hr => respects_verdict hr doPrint true

theorem respects_solveCest : Respects (solveCest ω.answer aaf grounded) fun _ => True := by
  rw [solveCest]
  refine (Keeps.loop (fun st : IpasirSolver × Int32 => st.1.openClause = []) (Q := fun _ => True)
    (fun st hst => ?_) (addStbTestClauses_openClause rfl)).bind fun _ _ => respects_printf _
  refine (respects_satSolve ω hst).bind fun r hr => ?_
  dsimp only
  split_ifs with h
  · refine (respects_readNegatives (hr.2 (by omega))).bind fun clause _ => ?_
    split_ifs
    · exact Keeps.pure trivial
    · exact Keeps.pure (satAddClause_openClause _ _)
  · exact Keeps.pure trivial

theorem respects_solveCeco : Respects (solveCeco ω.answer aaf grounded) fun _ => True := by
  rw [solveCeco]
  refine (Keeps.loop (fun st : IpasirSolver × Int32 => st.1.openClause = []) (Q := fun _ => True)
    (fun st hst => ?_) (addComTestClauses_openClause rfl)).bind fun _ _ => respects_printf _
  refine (respects_satSolve ω hst).bind fun r hr => ?_
  dsimp only
  split_ifs with h
  · refine (Keeps.foldlM (fun _ => True) _ (fun _ _ _ =>
      (respects_satPos (hr.2 (by omega)) _).bind fun _ _ => Keeps.pure trivial)
      trivial).bind fun clause _ => ?_
    split_ifs
    · exact Keeps.pure trivial
    · exact Keeps.pure (satAddClause_openClause _ _)
  · exact Keeps.pure trivial

theorem respects_ceprRead {inVars : Fin n → ℤ} {solver : IpasirSolver}
    (h : solver.state = .sat) (temp : RaSet n) :
    Respects (ceprRead inVars solver temp) fun _ => True := by
  refine Keeps.foldlM (fun _ => True) _ (fun _ _ _ => ?_) trivial
  refine (respects_satPos h _).bind fun _ _ => ?_
  split_ifs
  · exact Keeps.pure trivial
  · exact (respects_satNeg h _).bind fun _ _ => Keeps.pure trivial

theorem respects_ceprGrow {inVars : Fin n → ℤ} {st : CeprState n}
    (hst : st.solver.openClause = []) :
    Respects (ceprGrow ω.answer inVars st) (LoopStep.holds (fun st => st.solver.openClause = [])
      fun st => st.solver.openClause = []) := by
  rw [ceprGrow]
  refine (respects_satSolve ω hst).bind fun r hr => ?_
  dsimp only
  split_ifs with h
  · exact Keeps.pure hr.1
  · refine (respects_ceprRead (hr.2 h) _).bind fun p _ => ?_
    refine (Keeps.foldlM (fun p : RaSet n × IpasirSolver => p.2.openClause = []) _
      (fun p i hp => ?_) (satAddClause_openClause _ _)).bind fun p hp => Keeps.pure hp
    exact (respects_satAssume hp _).bind fun s hs => Keeps.pure hs

theorem respects_ceprRound {inVars : Fin n → ℤ} {p : CeprState n × Int32}
    (hp : p.1.solver.openClause = []) :
    Respects (ceprRound ω.answer inVars p) (LoopStep.holds (fun p => p.1.solver.openClause = [])
      fun _ => True) := by
  rw [ceprRound]
  refine (Keeps.loop (fun st : CeprState n => st.solver.openClause = [])
    (fun st hst => respects_ceprGrow ω hst) ?_).bind fun st hst => ?_
  · exact hp
  split_ifs
  · exact Keeps.pure trivial
  · exact Keeps.pure (satAddClause_openClause _ _)

theorem respects_solveCepr : Respects (solveCepr ω.answer aaf grounded) fun _ => True := by
  rw [solveCepr]
  exact (Keeps.loop (fun p : CeprState n × Int32 => p.1.solver.openClause = [])
    (fun p hp => respects_ceprRound ω hp) (satAdd_zero_openClause _)).bind
      fun _ _ => respects_printf _

end Direct

section Preferred
variable (ω : SatOracle) (aaf : AAF n) (grounded : Labeling) (arg : Fin n) (doPrint : Bool)
  {inVars outVars : Fin n → ℤ}

theorem respects_seprRound (hv : LabelVars inVars outVars) {st : SeprState n}
    (hst : st.solver.openClause = []) :
    Respects (seprRound ω.answer inVars st) (LoopStep.holds (fun st => st.solver.openClause = [])
      fun _ => True) := by
  rw [seprRound]
  refine (respects_satSolve ω hst).bind fun r hr => ?_
  dsimp only
  split_ifs with h
  · exact Keeps.pure trivial
  · rw [seprRead_of_sat (hr.2 h), pure_bind]
    dsimp only
    rw [foldl_impose hv.in_ne]
    exact Keeps.pure (IpasirSolver.pushAll_openClause (satAddClause_openClause _ _) _)

theorem respects_solveSepr (initialAdmSet : Option (RaSet n)) :
    Respects (solveSepr ω.answer aaf grounded initialAdmSet) fun _ => True := by
  have hv := labelVars_numberPairs n Int.one_pos
  rw [solveSepr]
  dsimp only
  split_ifs
  · exact respects_printf _
  · refine (Keeps.loop (fun st : SeprState n => st.solver.openClause = [])
      (fun st hst => respects_seprRound ω hv hst) ?_).bind fun _ _ => respects_printf _
    cases initialAdmSet with
    | none => exact satAdd_zero_openClause _
    | some s =>
      exact List.foldlRecOn (motive := fun s : IpasirSolver => s.openClause = []) _ _
        (satAdd_zero_openClause _) fun _ _ _ _ => rfl

/-- The search for an extension by the argument reads the model of the other object. -/
theorem respects_extensionTest {attAdmTest admTest : IpasirSolver}
    (h : attAdmTest.state = .sat) (hadm : admTest.openClause = []) :
    Respects (extensionTest ω.answer inVars arg attAdmTest admTest) Searched := by
  rw [extensionTest]
  exact (respects_satAssume hadm _).bind fun s hs =>
    (respects_assumePositives h hs).bind fun s hs => respects_satSolve ω hs

def BothClosed (st : IpasirSolver × IpasirSolver) : Prop :=
  st.1.openClause = [] ∧ st.2.openClause = []

theorem respects_dsprRound {st : IpasirSolver × IpasirSolver} (hst : BothClosed st) :
    Respects (dsprRound ω.answer aaf grounded arg doPrint inVars st)
      (LoopStep.holds BothClosed fun _ => True) := by
  rw [dsprRound]
  refine (respects_satSolve ω hst.2).bind fun r hr => ?_
  simp only [printWitness, ↓reduceIte]
  split_ifs with h
  · exact (respects_answer _ _).bind fun _ _ => Keeps.pure trivial
  refine (respects_extensionTest ω arg (hr.2 h) hst.1).bind fun r' hr' => ?_
  split_ifs with h'
  · refine (respects_report ?_).bind fun _ _ => Keeps.pure trivial
    exact (respects_readPositives (hr.2 h) _).bind fun s _ =>
      respects_solveSepr ω aaf grounded (some s)
  · exact (respects_addNegatives (hr'.2 h')).bind fun s hs => Keeps.pure ⟨hr'.1, hs⟩

theorem respects_solveDspr :
    Respects (solveDspr ω.answer aaf grounded arg doPrint) fun _ => True := by
  have hv := labelVars_numberPairs n Int.one_pos
  rw [solveDspr]
  simp only [printWitness, ↓reduceIte]
  refine (respects_satAssume (addAdmTestClauses_openClause hv rfl) _).bind fun s hs =>
    (respects_satSolve ω hs).bind fun r hr => ?_
  split_ifs with h
  · exact (respects_report (respects_solveSepr ω aaf grounded none)).bind
      fun _ _ => Keeps.pure trivial
  refine (respects_addNegatives (hr.2 h)).bind fun att hatt =>
    (respects_satAssume hr.1 _).bind fun s hs => (respects_satSolve ω hs).bind fun r' hr' => ?_
  split_ifs with h'
  · refine (respects_report ?_).bind fun _ _ => Keeps.pure trivial
    exact (respects_readPositives (hr'.2 (by omega)) _).bind fun s _ =>
      respects_solveSepr ω aaf grounded (some s)
  · exact Keeps.loop BothClosed (fun st hst => respects_dsprRound ω aaf grounded arg doPrint hst)
      ⟨hr'.1, satAddClause1_openClause _⟩

theorem respects_removeChildren {solver : IpasirSolver} (h : solver.state = .sat) (psc : RaSet n) :
    Respects (removeChildren aaf inVars solver psc) fun _ => True :=
  Keeps.foldlM (fun _ => True) _
    (fun _ _ _ => (respects_satPos h _).bind fun _ _ => Keeps.pure trivial) trivial

theorem respects_pscRound (st : PscState n) :
    Respects (pscRound ω.answer aaf inVars st)
      (LoopStep.holds (fun _ => True) fun _ => True) := by
  rw [pscRound]
  rcases addAttackers aaf inVars st.psc st.solver with ⟨emptyclause, solver⟩
  dsimp only
  split_ifs
  · exact Keeps.pure trivial
  refine (respects_satSolve ω (satAdd_zero_openClause _)).bind fun r hr => ?_
  split_ifs with h
  · exact Keeps.pure trivial
  · exact (respects_removeChildren aaf (hr.2 h) _).bind fun _ _ => Keeps.pure trivial

theorem respects_removeUndefended (ideal : RaSet n) :
    Respects (removeUndefended aaf ideal) fun _ => True := by
  refine Keeps.loop (fun _ => True) (fun ideal _ => ?_) trivial
  refine (Keeps.loop (fun _ => True) (Q := fun _ => True) (fun st _ => ?_) trivial).bind
    fun st _ => ?_
  · unfold sweepStep
    dsimp only
    split_ifs <;> exact Keeps.pure trivial
  · refine Keeps.pure ?_
    split_ifs <;> trivial

theorem respects_computeIdeal :
    Respects (computeIdeal ω.answer aaf grounded) fun _ => True := by
  rw [computeIdeal]
  refine (Keeps.loop (fun _ => True) (fun st _ => respects_pscRound ω aaf st) trivial).bind
    fun p _ => ?_
  rcases p with ⟨psc, onerunonly⟩
  dsimp only
  split_ifs
  · exact Keeps.pure trivial
  · exact Keeps.pure trivial
  · exact respects_removeUndefended aaf _

theorem respects_solveSeid : Respects (solveSeid ω.answer aaf grounded) fun _ => True :=
  (respects_computeIdeal ω aaf grounded).bind fun _ _ => respects_printf _

theorem respects_removeChildrenExcept {solver : IpasirSolver} (h : solver.state = .sat)
    (psc : RaSet n) :
    Respects (removeChildrenExcept aaf arg inVars solver psc) fun _ => True := by
  refine Keeps.foldlM (fun _ => True) _ (fun psc _ _ => ?_) trivial
  cases psc with
  | none => exact Keeps.pure trivial
  | some psc => exact (respects_satPos h _).bind fun _ _ => Keeps.pure trivial

theorem respects_dsidRound (st : PscState n) :
    Respects (dsidRound ω.answer aaf arg inVars st)
      (LoopStep.holds (fun _ => True) fun _ => True) := by
  rw [dsidRound]
  rcases addAttackers aaf inVars st.psc st.solver with ⟨emptyclause, solver⟩
  dsimp only
  split_ifs
  · exact Keeps.pure trivial
  refine (respects_satSolve ω (satAdd_zero_openClause _)).bind fun r hr => ?_
  split_ifs with h
  · exact Keeps.pure trivial
  refine (respects_removeChildrenExcept aaf arg (hr.2 h) _).bind fun psc _ => ?_
  cases psc with
  | none => exact Keeps.pure trivial
  | some psc => exact Keeps.pure trivial

theorem respects_removeUndefendedExcept (ideal : RaSet n) :
    Respects (removeUndefendedExcept aaf arg ideal) fun _ => True := by
  refine Keeps.loop (fun _ => True) (fun ideal _ => ?_) trivial
  refine (Keeps.loop (fun _ => True) (Q := fun _ => True) (fun st _ => ?_) trivial).bind
    fun st _ => ?_
  · unfold sweepStepExcept
    dsimp only
    split_ifs <;> exact Keeps.pure trivial
  · cases st with
    | none => exact Keeps.pure trivial
    | some st =>
      refine Keeps.pure ?_
      split_ifs <;> trivial

theorem respects_answerNo : Respects (answerNo doPrint) fun _ => True :=
  (respects_answer doPrint false).bind fun _ _ => Keeps.pure trivial

theorem respects_solveDsid :
    Respects (solveDsid ω.answer aaf grounded arg doPrint) fun _ => True := by
  have hno := respects_answerNo doPrint
  rw [solveDsid]
  refine (Keeps.loop (fun _ => True) (fun st _ => respects_dsidRound ω aaf arg st) trivial).bind
    fun psc _ => ?_
  rcases psc with _ | ⟨psc, onerunonly⟩
  · exact hno
  dsimp only
  split_ifs
  · exact hno
  · exact hno
  rcases keepUnattackedExcept aaf arg psc with _ | ideal
  · exact hno
  refine (respects_removeUndefendedExcept aaf arg ideal).bind fun ideal _ => ?_
  rcases ideal with _ | ideal
  · exact hno
  · exact (respects_answer _ _).bind fun _ _ => Keeps.pure trivial

theorem respects_spscRound (psc acc : RaSet n) (st : IpasirSolver × RaSet n) :
    Respects (spscRound ω.answer grounded inVars psc acc st)
      (LoopStep.holds (fun _ => True) fun _ => True) := by
  rw [spscRound]
  rcases addOpen inVars psc acc st.2 st.1 with ⟨emptyclause, solver⟩
  dsimp only
  split_ifs
  · exact Keeps.pure trivial
  refine (respects_satSolve ω (satAdd_zero_openClause _)).bind fun r hr => ?_
  split_ifs with h
  · exact Keeps.pure trivial
  · rw [addCredulous_of_sat (hr.2 h), pure_bind]
    exact Keeps.pure trivial

theorem respects_eaprRound {inAttackedVars : Fin n → ℤ} {st : IpasirSolver × IpasirSolver}
    (hst : BothClosed st) :
    Respects (eaprRound ω.answer inVars inAttackedVars arg st)
      (LoopStep.holds BothClosed fun _ => True) := by
  rw [eaprRound]
  refine (respects_satAssume hst.2 _).bind fun s hs => (respects_satSolve ω hs).bind fun r hr => ?_
  dsimp only
  split_ifs with h
  · exact Keeps.pure trivial
  refine (respects_extensionTest ω arg (hr.2 h) hst.1).bind fun r' hr' => ?_
  split_ifs with h'
  · exact Keeps.pure trivial
  · exact (respects_addNegatives (hr'.2 h')).bind fun s hs => Keeps.pure ⟨hr'.1, hs⟩

theorem imposeAccepted_closed {inAttackedVars : Fin n → ℤ} (acc : RaSet n)
    {st : IpasirSolver × IpasirSolver} (hst : BothClosed st) :
    BothClosed (imposeAccepted inVars inAttackedVars acc st) :=
  List.foldlRecOn (motive := BothClosed) _ _ hst fun _ _ _ _ => ⟨rfl, rfl⟩

theorem respects_eaprTest (hv : LabelVars inVars outVars) {inAttackedVars outAttackedVars : Fin n → ℤ}
    (acc : RaSet n) :
    Respects (eaprTest ω.answer aaf grounded inVars outVars inAttackedVars outAttackedVars acc arg)
      fun _ => True := by
  rw [eaprTest]
  exact (Keeps.loop BothClosed (fun st hst => respects_eaprRound ω arg hst)
    (imposeAccepted_closed acc ⟨addAdmTestClauses_openClause hv rfl,
      attAdmTest_openClause aaf grounded⟩)).bind fun _ _ => Keeps.pure trivial

theorem respects_solveEapr : Respects (solveEapr ω.answer aaf grounded) fun _ => True := by
  have hv := labelVars_numberPairs n Int.one_pos
  rw [solveEapr]
  refine (Keeps.loop (fun _ => True) (fun st _ => respects_pscRound ω aaf st) trivial).bind
    fun p _ => ?_
  rcases p with ⟨psc, onerunonly⟩
  dsimp only
  split_ifs
  · exact respects_printf _
  · exact respects_printf _
  refine (respects_removeUndefended aaf _).bind fun acc _ =>
    (Keeps.loop (fun _ => True) (fun st _ => respects_spscRound ω grounded _ acc st) trivial).bind
      fun spsc _ => ?_
  exact (Keeps.foldlM (fun _ => True) _ (fun acc arg _ =>
    respects_eaprTest ω aaf grounded arg hv acc) trivial).bind fun acc _ => respects_printf _

end Preferred

section Range
variable (ω : SatOracle) (aaf : AAF n) (grounded : Labeling) {inVars outVars : Fin n → ℤ}

theorem respects_seRangeRead {solver : IpasirSolver} (h : solver.state = .sat)
    (st : SeRangeState n) : Respects (seRangeRead inVars outVars solver st) fun _ => True := by
  refine Keeps.foldlM (fun _ => True) _ (fun p i _ => ?_) trivial
  refine (Keeps.andM (Keeps.pure trivial) (respects_satEitherPos h _ _)).bind fun new _ => ?_
  have hin : ∀ f : Bool → SeRangeState n × List ℤ,
      Respects (do pure (f (← satPos solver (inVars i)))) fun _ => True :=
    fun f => (respects_satPos h _).bind fun _ _ => Keeps.pure trivial
  dsimp only
  split_ifs
  · rw [pure_bind]
    exact hin _
  · refine ((respects_satNeg h _).andM (respects_satNeg h _)).bind fun undec _ => ?_
    rw [pure_bind]
    exact hin _

theorem respects_seRangeRound {st : SeRangeState n} (hst : st.solver.openClause = []) :
    Respects (seRangeRound ω.answer inVars outVars st)
      (LoopStep.holds (fun st => st.solver.openClause = []) fun _ => True) := by
  rw [seRangeRound]
  refine (respects_satSolve ω hst).bind fun r hr => ?_
  dsimp only
  split_ifs with h
  · exact Keeps.pure trivial
  refine (respects_seRangeRead (hr.2 h) _).bind fun p _ => Keeps.pure ?_
  exact List.foldlRecOn (motive := fun p : RaSet n × IpasirSolver => p.2.openClause = []) _ _
    (satAddClause_openClause _ _) fun _ _ _ _ => rfl

theorem respects_solveSeRange (encode : IpasirSolver → (Fin n → ℤ) → (Fin n → ℤ) → AAF n →
    Labeling → Bool × IpasirSolver) :
    Respects (solveSeRange ω.answer aaf grounded encode) fun _ => True := by
  rw [solveSeRange]
  dsimp only
  split_ifs
  · exact respects_printf _
  · exact (Keeps.loop (fun st : SeRangeState n => st.solver.openClause = [])
      (fun st hst => respects_seRangeRound ω hst) (satAdd_zero_openClause _)).bind
        fun _ _ => respects_printf _

end Range

end TaasFudge
