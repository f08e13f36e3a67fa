import TaasFudge.Program.Cost
import TaasFudge.Taas.Solve
import TaasFudge.Tasks.Counting
import TaasFudge.Tasks.SeRangeCorrectness
import TaasFudge.Tasks.Stable

/-! # How often the solver is asked

What a task costs is the number of its searches. A set that grows with every model bounds
their number by the number of arguments; a count needs one search for each extension, and
one more to see that there is no other.
-/

namespace TaasFudge

open Dimacs Prog

variable {n : ℕ}

section Operations
variable {ω : Oracle} {solver : IpasirSolver}

@[simp] theorem World.expect_calls (w : World) (b : Bool) : (w.expect b).calls = w.calls := rfl

theorem satSolve_run (ω : Oracle) (solver : IpasirSolver) (k : ℕ) (w : World) :
    (satSolve ω solver k w).2 =
      { w.expect solver.openClause.isEmpty with calls := w.calls + 1 } := by
  rw [satSolve, atomic]
  dsimp only
  cases ω w.calls solver.query <;> rfl

theorem costs_satSolve : Costs World.calls 1 (satSolve ω solver) := by
  intro k w
  rw [satSolve_run]

theorem costs_satGet (var : ℤ) : Costs World.calls 0 (satGet solver var) :=
  costs_atomic fun w => (w.expect_calls _).le

theorem costs_satPos (var : ℤ) : Costs World.calls 0 (satPos solver var) :=
  (costs_satGet var).bind_free fun _ => costs_pure _

theorem costs_satNeg (var : ℤ) : Costs World.calls 0 (satNeg solver var) :=
  (costs_satGet var).bind_free fun _ => costs_pure _

theorem costs_satAssume (lit : ℤ) : Costs World.calls 0 (satAssume solver lit) :=
  costs_atomic fun w => (w.expect_calls _).le

theorem costs_printf (s : String) : Costs World.calls 0 (printf s) := costs_atomic fun _ => le_rfl

theorem costs_andM {p q : Prog World Bool} (hp : Costs World.calls 0 p)
    (hq : Costs World.calls 0 q) : Costs World.calls 0 (p <&&> q) := by
  apply hp.bind_free
  intro b
  cases b with
  | false => exact costs_pure _
  | true => exact hq

theorem costs_satEitherPos (var1 var2 : ℤ) :
    Costs World.calls 0 (satEitherPos solver var1 var2) := by
  apply (costs_satPos _).bind_free
  intro b
  cases b with
  | false => exact costs_satPos _
  | true => exact costs_pure _

theorem costs_report (doPrint b : Bool) {witness : Prog World Unit}
    (h : Costs World.calls 0 witness) : Costs World.calls 0 (report doPrint b witness) := by
  rw [report]
  apply Costs.ite _ (costs_pure _)
  exact (costs_printf _).bind_free fun _ => h

theorem report_searches {doPrint b : Bool} {witness : Prog World Unit} {c : ℕ} {w : World}
    (h : ∀ w', Total witness (fun _ w'' => w''.calls ≤ w'.calls + c) w') :
    Total (report doPrint b witness) (fun _ w' => w'.calls ≤ w.calls + c) w := by
  cases doPrint with
  | false => exact total_pure.2 (Nat.le_add_right _ _)
  | true => exact total_atomic_bind.2 (h _)

theorem costs_printModel (vars : Fin n → ℤ) (name : Fin n → String) :
    Costs World.calls 0 (printModel solver vars name) := by
  apply (costs_printf _).bind_free
  intro _
  apply Costs.bind_free _ fun _ => costs_printf _
  apply costs_foldlM
  intro _ i
  apply (costs_satPos _).bind_free
  exact fun _ => (costs_printf _).ite (costs_pure _)

end Operations

section Growing
variable {aaf : AAF n} {inVars outVars : Fin n → ℤ}

section Rounds
variable {ω : Oracle}

theorem costs_seprRound (st : SeprState n) : Costs World.calls 1 (seprRound ω inVars st) := by
  apply costs_satSolve.bind_free
  rintro ⟨sat, solver⟩
  apply (costs_pure _).ite
  apply Costs.bind_free _ fun _ => costs_pure _
  apply costs_foldlM
  intro p i
  apply (costs_andM (costs_pure _) (costs_satPos _)).bind_free
  intro new
  apply (costs_pure _).ite
  exact (costs_satNeg _).bind_free fun _ => costs_pure _

theorem costs_seRangeRound (st : SeRangeState n) :
    Costs World.calls 1 (seRangeRound ω inVars outVars st) := by
  apply costs_satSolve.bind_free
  rintro ⟨sat, solver⟩
  apply (costs_pure _).ite
  apply Costs.bind_free _ fun _ => costs_pure _
  apply costs_foldlM
  intro p i
  apply (costs_andM (costs_pure _) (costs_satEitherPos _ _)).bind_free
  intro new
  dsimp only
  have hin : ∀ q : SeRangeState n × List ℤ, Costs World.calls 0 (do
      let isIn ← satPos solver (inVars i)
      pure (if isIn then ({ q.1 with inArg := q.1.inArg.add i }, q.2) else q)) :=
    fun q => (costs_satPos _).bind_free fun _ => costs_pure _
  apply ((costs_pure _).bind_free hin).ite
  apply (costs_andM (costs_satNeg _) (costs_satNeg _)).bind_free
  exact fun undec => (costs_pure _).bind_free hin

theorem costs_ceprGrow (st : CeprState n) : Costs World.calls 1 (ceprGrow ω inVars st) := by
  apply costs_satSolve.bind_free
  rintro ⟨sat, solver⟩
  apply (costs_pure _).ite
  apply Costs.bind_free
  · apply costs_foldlM
    intro p i
    apply (costs_satPos _).bind_free
    intro pos
    apply (costs_pure _).ite
    exact (costs_satNeg _).bind_free fun _ => costs_pure _
  · rintro ⟨temp, clause⟩
    apply Costs.bind_free _ fun _ => costs_pure _
    apply costs_foldlM
    intro p i
    exact (costs_satAssume _).bind_free fun _ => costs_pure _

theorem costs_pscRound (st : PscState n) : Costs World.calls 1 (pscRound ω aaf inVars st) := by
  rw [pscRound]
  dsimp only
  apply ((costs_pure _).mono (Nat.zero_le 1)).ite
  apply costs_satSolve.bind_free
  rintro ⟨sat, solver⟩
  apply (costs_pure _).ite
  apply Costs.bind_free _ fun _ => costs_pure _
  apply costs_foldlM
  intro psc i
  exact (costs_satPos _).bind_free fun _ => costs_pure _

end Rounds

variable {ω : TotalOracle} {grounded : Labeling} {solver : IpasirSolver}

theorem solveSepr_searches (hg : Grounds aaf grounded) {initialAdmSet : Option (RaSet n)}
    (hinit : ∀ s ∈ initialAdmSet, aaf.framework.Admissible s.toSet) (w : World) :
    Total (solveSepr ω.answer aaf grounded initialAdmSet)
      (fun _ w' => w'.calls ≤ w.calls + (n + 1)) w := by
  have hv := labelVars_numberPairs n Int.one_pos
  have henc := addAdmTestClauses_encodes hv hg
  have hdesc := henc.describes hv
  rw [solveSepr]
  dsimp only
  rw [henc.eq] at hdesc ⊢
  dsimp only at hdesc ⊢
  split_ifs
  · exact total_atomic.2 (Nat.le_add_right _ _)
  · apply Total.bind
    apply (Total.loop_rounds (fun st w' => SeprInv aaf _ _ _ st ∧ w'.stdout = w.stdout)
      (fun st => n - st.admSet.numberOfElements)
      (fun st w' h => total_seprRound ω hv h.1 h.2) costs_seprRound
      ⟨seprStart_inv hv hdesc hinit, rfl⟩).mono
    rintro s w' ⟨-, hw'⟩
    apply total_atomic.2
    dsimp only
    omega

theorem seRangeLoop_searches {L : Set (Fin n) → Set (Fin n) → Prop}
    (hv : LabelVars inVars outVars)
    (h : solver.Describes (labels inVars outVars) fun b => L b.1 b.2) (w : World) :
    Total (Prog.loop (seRangeRound ω.answer inVars outVars) (seRangeStart inVars outVars solver))
      (fun _ w' => w'.calls ≤ w.calls + (n + 1)) w := by
  apply (Total.loop_rounds (Q := fun _ _ => True)
    (fun st w' => ∃ D, SeRangeInv L (fun _ => True) inVars outVars st D)
    (fun st => n - st.notUndec.numberOfElements) _ costs_seRangeRound
    ⟨_, seRangeInv_start h⟩).mono
  · rintro s w' ⟨-, hw'⟩
    omega
  · rintro st w' ⟨D, hst⟩
    apply total_seRangeRound ω.toSatOracle hv hst.climb.describes
    · intro m w'' _ hm _
      obtain ⟨hinv, -, hlt⟩ := hst.next hv trivial hm
      exact ⟨⟨_, hinv⟩, RaSet.room_lt hlt⟩
    · exact fun _ _ _ => trivial

theorem solveSeRange_searches {task : RangeTask n} {L : Set (Fin n) → Set (Fin n) → Prop}
    {Ext : Set (Fin n) → Prop} (hc : task.Correct aaf grounded L Ext) (w : World) :
    Total (solveSeRange ω.answer aaf grounded task.encode)
      (fun _ w' => w'.calls ≤ w.calls + (n + 1)) w := by
  have hv := labelVars_numberPairs n Int.one_pos
  obtain ⟨cs, henc⟩ := hc.encodes hv
  have hdesc := henc.describes hv
  have heq := henc.eq satInit
  rw [heq] at hdesc
  simp only [solveSeRange, heq]
  split_ifs
  · exact total_atomic.2 (Nat.le_add_right _ _)
  · rw [seRangeStart_eq hv]
    apply Total.bind
    apply (seRangeLoop_searches hv hdesc w).mono
    exact fun s w' hw' => total_atomic.2 hw'

theorem pscLoop_searches (hv : LabelVars inVars outVars) (hg : Grounds aaf grounded) (w : World) :
    Total (Prog.loop (pscRound ω.answer aaf inVars)
      ⟨(addAdmTestClauses satInit inVars outVars aaf grounded).2, pscStart grounded, true⟩)
      (fun _ w' => w'.calls ≤ w.calls + (n + 1)) w := by
  apply (Total.loop_rounds
    (fun st w' => (∃ R, PscInv aaf inVars outVars st R) ∧ w'.stdout = w.stdout)
    (fun st => st.psc.numberOfElements)
    (fun _ _ ⟨⟨_, h⟩, hw'⟩ => total_pscRound ω hv h hw') costs_pscRound
    ⟨⟨_, pscStart_inv hv hg⟩, rfl⟩).mono
  rintro s w' ⟨-, hw'⟩
  have := (pscStart grounded : RaSet n).numberOfElements_le
  dsimp only at hw'
  omega

theorem computeIdeal_searches (hg : Grounds aaf grounded) (w : World) :
    Total (computeIdeal ω.answer aaf grounded) (fun _ w' => w'.calls ≤ w.calls + (n + 1)) w := by
  rw [computeIdeal]
  dsimp only
  apply Total.bind
  apply (pscLoop_searches (labelVars_numberPairs n Int.one_pos) hg w).mono
  rintro ⟨psc, onerunonly⟩ w' hw'
  dsimp only
  split_ifs
  · exact total_pure.2 hw'
  · exact total_pure.2 hw'
  · apply (total_removeUndefended _ w').mono
    rintro s w'' ⟨-, rfl⟩
    exact hw'

end Growing

section Single
variable {ω : Oracle} {aaf : AAF n} {grounded : Labeling} {arg : Fin n} {doPrint : Bool}

theorem costs_solveDcco :
    Costs World.calls 1 (solveDcco ω aaf grounded arg doPrint) := by
  apply (costs_satAssume _).free_bind
  intro solver
  apply costs_satSolve.bind_free
  rintro ⟨sat, solver⟩
  apply ((costs_report _ _ (costs_pure _)).bind_free fun _ => costs_pure _).ite
  exact (costs_report _ _ (costs_printModel _ _)).bind_free fun _ => costs_pure _

theorem costs_solveDcst :
    Costs World.calls 1 (solveDcst ω aaf grounded arg doPrint) := by
  apply (costs_satAssume _).free_bind
  intro solver
  apply costs_satSolve.bind_free
  rintro ⟨sat, solver⟩
  apply ((costs_report _ _ (costs_pure _)).bind_free fun _ => costs_pure _).ite
  exact (costs_report _ _ (costs_printModel _ _)).bind_free fun _ => costs_pure _

theorem costs_solveSest : Costs World.calls 1 (solveSest ω aaf grounded) := by
  apply costs_satSolve.bind_free
  rintro ⟨sat, solver⟩
  exact (costs_printf _).ite (costs_printModel _ _)

theorem costs_solveDsst : Costs World.calls 2 (solveDsst ω aaf grounded arg doPrint) := by
  have hreport : ∀ b {witness : Prog World Unit}, Costs World.calls 0 witness →
      Costs World.calls 1 (do report doPrint b witness; pure b) := fun b _ h =>
    ((costs_report _ _ h).bind_free fun _ => costs_pure b).mono zero_le_one
  apply costs_satSolve.bind (d := 1)
  rintro ⟨sat, solver⟩
  apply (hreport _ (costs_pure _)).ite
  apply (hreport _ (costs_pure _)).ite
  apply (hreport _ (costs_printModel _ _)).ite
  apply (costs_satAssume _).free_bind
  intro solver
  apply costs_satSolve.bind_free
  rintro ⟨sat, solver⟩
  apply ((costs_report _ _ (costs_pure _)).bind_free fun _ => costs_pure _).ite
  exact (costs_report _ _ (costs_printModel _ _)).bind_free fun _ => costs_pure _

end Single

section Preferred
variable {ω : TotalOracle} {aaf : AAF n} {grounded : Labeling} {inVars outVars : Fin n → ℤ}
  {C B : Set (Set (Fin n))} {p : CeprState n × Int32}

/-- One extension is approached in at most one search for each argument, and one to see that it
is maximal. -/
theorem ceprRound_searches (hv : LabelVars inVars outVars)
    (h : CountInv aaf inVars outVars C B p) (w : World) :
    Total (ceprRound ω.answer inVars p) (fun _ w' => w'.calls ≤ w.calls + (n + 1)) w := by
  have hempty : p.1.admSet.reset.toSet = ∅ := by ext i; simp
  have hstart : CeprInv aaf inVars outVars C B
      { p.1 with admSet := p.1.admSet.reset, noFurther := true } := by
    refine ⟨?_, ⟨p.1.solver, [], rfl, h.describes, ?_⟩, fun _ => hempty, nofun⟩
    · dsimp only
      rw [hempty]
      exact h.blocking
    · intro τ
      simp [hempty]
  apply Total.bind
  apply (Total.loop_rounds
    (fun st w' => (∃ B', CeprInv aaf inVars outVars C B' st) ∧ w'.stdout = w.stdout)
    (fun st => n - st.admSet.numberOfElements)
    (fun st w' ⟨⟨B', hst⟩, hw'⟩ => total_ceprGrow ω hv hst hw') costs_ceprGrow
    ⟨⟨B, hstart⟩, rfl⟩).mono
  rintro st w' ⟨-, hw'⟩
  split_ifs
  · apply total_pure.2
    omega
  · apply total_pure.2
    omega

theorem solveCepr_searches (hg : Grounds aaf grounded) (w : World) :
    Total (solveCepr ω.answer aaf grounded) (fun _ w' => w'.calls ≤
      w.calls + (n + 1) * ({P | aaf.framework.Preferred P}.ncard + 1)) w := by
  have hv := labelVars_numberPairs n Int.one_pos
  have hdesc := (addAdmTestClauses_encodes hv hg).describes hv
  rw [solveCepr]
  dsimp only
  rw [← List.foldl_map, satAdd_zero_foldl fun l => ne_zero_of_mem_map hv.in_ne]
  apply Total.bind
  apply (Total.loop_charged (c := n + 1) (d := n + 1)
    (fun C p _ => ∃ B, CountInv aaf (numberPairs n 1).1 (numberPairs n 1).2.1 C B p)
    (uncounted aaf) (Q := fun _ _ => True)
    (fun C p w' hinv => ?_) (i := ∅) ⟨∅, CountInv.start hdesc⟩).mono
  · rintro count w' ⟨-, hw'⟩
    apply total_atomic.2
    rw [uncounted_empty] at hw'
    rwa [Nat.mul_succ]
  · obtain ⟨B, h⟩ := hinv
    apply ((total_ceprRound ω hv h rfl).and (ceprRound_searches hv h w')).mono
    rintro x w'' ⟨hx, hw''⟩
    cases x with
    | again p' =>
      obtain ⟨C', ⟨hC', -⟩, hlt⟩ := hx
      exact ⟨⟨C', hC', hlt⟩, hw''⟩
    | exit count => exact ⟨trivial, hw''⟩

end Preferred

end TaasFudge
