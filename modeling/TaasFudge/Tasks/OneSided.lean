import TaasFudge.Sat.Alike
import TaasFudge.Tasks.Counting
import TaasFudge.Tasks.SeId

/-! # Tasks that read one sign

DC-CO, the stable tasks, CE-CO and the computation of the ideal extension only ever ask whether a
value is positive. With a solver that leaves variables open they run as with the one that completes
its models by false. CE-ST asks whether a value is negative, but the variables of a stable extension
are rigid.
-/

namespace TaasFudge

open Dimacs Prog

variable {n : ℕ}

section Reading
variable {solver solver' : IpasirSolver} {vars : Fin n → ℤ}

theorem printModel_congr (h : Alike false solver solver') (hpos : ∀ i, 0 < vars i)
    (name : Fin n → String) : printModel solver' vars name = printModel solver vars name := by
  have hread := fun i => satPos_congr h (hpos i)
  simp only [printModel, hread]

theorem readBlocking_congr (h : Alike false solver solver') (hpos : ∀ i, 0 < vars i) :
    readBlocking solver' vars = readBlocking solver vars := by
  have hread := fun i => satPos_congr h (hpos i)
  simp only [readBlocking, hread]

theorem removeChildren_congr (h : Alike false solver solver') (hpos : ∀ i, 0 < vars i)
    (aaf : AAF n) (psc : RaSet n) :
    removeChildren aaf vars solver' psc = removeChildren aaf vars solver psc := by
  have hread := fun i => satPos_congr h (hpos i)
  simp only [removeChildren, hread]

end Reading

section Direct
variable (ω : SatOracle) (aaf : AAF n) (grounded : Labeling) {arg : Fin n} {doPrint : Bool}

/-- A search under an assumption decides and gives the witness. -/
theorem lockstep_decide {solver solver' : IpasirSolver} {vars : Fin n → ℤ}
    (h : Alike false solver solver') (hpos : ∀ i, 0 < vars i) (b : Bool) (l : ℤ) :
    Lockstep (· = ·) (do
      let solver ← satAssume solver l
      let (sat, solver) ← satSolve ω.answer solver
      if sat = 20 then
        report doPrint (!b) (pure ())
        pure (!b)
      else
        report doPrint b (if printWitness then printModel solver vars argNumber else pure ())
        pure b : Prog World Bool) (do
      let solver ← satAssume solver' l
      let (sat, solver) ← satSolve ω.complete.answer solver
      if sat = 20 then
        report doPrint (!b) (pure ())
        pure (!b)
      else
        report doPrint b (if printWitness then printModel solver vars argNumber else pure ())
        pure b) := by
  apply (lockstep_satAssume h l).bind
  intro solver₁ solver₂ h
  apply (lockstep_satSolve ω h rfl).bind
  rintro ⟨sat, _⟩ ⟨_, _⟩ ⟨rfl, h, -⟩
  dsimp only
  rw [printModel_congr h hpos]
  exact lockstep_of_eq rfl

theorem solveDcco_complete : solveDcco ω.answer aaf grounded arg doPrint =
    solveDcco ω.complete.answer aaf grounded arg doPrint :=
  (lockstep_decide ω (.refl false _) (labelVars_numberPairs n Int.one_pos).in_pos true _).eq

theorem solveDcst_complete : solveDcst ω.answer aaf grounded arg doPrint =
    solveDcst ω.complete.answer aaf grounded arg doPrint :=
  (lockstep_decide ω (.refl false _) (numberVars_pos n) true _).eq

theorem solveSest_complete :
    solveSest ω.answer aaf grounded = solveSest ω.complete.answer aaf grounded := by
  rw [solveSest, solveSest]
  apply Lockstep.eq
  apply (lockstep_satSolve ω (.refl false _) rfl).bind
  rintro ⟨sat, _⟩ ⟨_, _⟩ ⟨rfl, h, -⟩
  exact .ite (lockstep_of_eq rfl) (lockstep_of_eq (printModel_congr h (numberVars_pos n) _).symm)

/-- The second search is asked of the object that holds the first model. -/
theorem solveDsst_complete : solveDsst ω.answer aaf grounded arg doPrint =
    solveDsst ω.complete.answer aaf grounded arg doPrint := by
  rw [solveDsst, solveDsst]
  apply Lockstep.eq
  apply (lockstep_satSolve ω (.refl false _) rfl).bind
  rintro ⟨sat, _⟩ ⟨_, _⟩ ⟨rfl, h, -⟩
  have hfirst := printModel_congr h (numberVars_pos n) argNumber
  apply Lockstep.ite (lockstep_of_eq rfl)
  apply Lockstep.ite (lockstep_of_eq rfl)
  apply Lockstep.ite
  · apply lockstep_of_eq
    exact congrArg (fun witness : Prog World Unit => (do
      report doPrint false (if printWitness then witness else pure ())
      pure false : Prog World Bool)) hfirst.symm
  · exact lockstep_decide ω h (numberVars_pos n) false _

end Direct

section Counting
variable (ω : SatOracle) (aaf : AAF n) (grounded : Labeling)

theorem lockstep_countRound {read : IpasirSolver → Prog World (List ℤ)}
    (hread : ∀ s s', Alike false s s' → read s' = read s) {p p' : IpasirSolver × Int32}
    (h : Alike false p.1 p'.1) (hcount : p.2 = p'.2) :
    Lockstep (LoopStep.Rel
        (fun p p' : IpasirSolver × Int32 => Alike false p.1 p'.1 ∧ p.2 = p'.2) (· = ·))
      (countRound ω.answer read p) (countRound ω.complete.answer read p') := by
  apply (lockstep_satSolve ω h rfl).bind
  rintro ⟨sat, _⟩ ⟨_, _⟩ ⟨rfl, h, -⟩
  dsimp only
  rw [hread _ _ h, hcount]
  apply Lockstep.ite
  · apply lockstep_bind
    intro clause
    apply Lockstep.ite
    · exact lockstep_pure (.exit rfl)
    · exact lockstep_pure (.again ⟨h.satAddClause _ _, rfl⟩)
  · exact lockstep_pure (.exit rfl)

theorem solveCeco_complete :
    solveCeco ω.answer aaf grounded = solveCeco ω.complete.answer aaf grounded := by
  have hpos := (labelVars_numberPairs n Int.one_pos).in_pos
  rw [solveCeco, solveCeco]
  apply Lockstep.eq
  have hloop : ∀ p p' : IpasirSolver × Int32, Alike false p.1 p'.1 → p.2 = p'.2 →
      Lockstep (· = ·) (loop (cecoRound ω.answer (numberPairs n 1).1) p)
        (loop (cecoRound ω.complete.answer (numberPairs n 1).1) p') := by
    intro p p' h hcount
    apply Lockstep.loop (fun p p' => Alike false p.1 p'.1 ∧ p.2 = p'.2) _ ⟨h, hcount⟩
    rintro p p' ⟨h, hcount⟩
    exact lockstep_countRound ω (fun _ _ h => readBlocking_congr h hpos) h hcount
  apply (hloop _ _ (.refl false _) rfl).bind
  rintro count _ rfl
  exact lockstep_of_eq rfl

end Counting

section Stable
variable {aaf : AAF n} {grounded : Labeling} {vars : Fin n → ℤ}

theorem selected_flip (hpos : ∀ i, 0 < vars i) (hinj : Function.Injective vars) (τ : Assignment)
    (i j : Fin n) :
    j ∈ selected (Function.update τ (vars i).natAbs (!τ (vars i).natAbs)) vars ↔
      if j = i then i ∉ selected τ vars else j ∈ selected τ vars := by
  split_ifs with hij
  · rw [hij, mem_selected, mem_selected, τ.lit_flip, Bool.not_eq_true', Bool.not_eq_true]
  · have hne : (vars j).natAbs ≠ (vars i).natAbs := by
      intro h
      have hi := hpos i
      have hj := hpos j
      exact hij (hinj (by omega))
    rw [mem_selected, mem_selected, τ.lit_update_of_ne hne]

theorem rigid_stable (hpos : ∀ i, 0 < vars i) (hinj : Function.Injective vars) (i : Fin n) :
    Rigid (fun τ => aaf.framework.Stable (selected τ vars)) (vars i).natAbs := by
  intro τ hτ hflip
  have hmem := selected_flip hpos hinj τ i
  have hi := (hmem i).trans (if_pos rfl).to_iff
  have hother : ∀ j, j ≠ i → (j ∈ selected
      (Function.update τ (vars i).natAbs (!τ (vars i).natAbs)) vars ↔ j ∈ selected τ vars) :=
    fun j hji => (hmem j).trans (if_neg hji).to_iff
  -- the two sets differ in one argument, so one contains the other
  have hsub : ∀ {S T : Set (Fin n)}, (∀ j, j ≠ i → (j ∈ S ↔ j ∈ T)) → (i ∈ T → i ∉ S) →
      i ∈ T → S ⊆ T := by
    intro S T hST hnot hT j hj
    have hji : j ≠ i := by
      rintro rfl
      exact hnot hT hj
    exact (hST j hji).1 hj
  by_cases hτi : i ∈ selected τ vars
  · have heq := hflip.eq_of_subset hτ (hsub hother (fun _ h => hi.1 h hτi) hτi)
    exact hi.1 (heq ▸ hτi) hτi
  · have heq := hτ.eq_of_subset hflip
      (hsub (fun j hji => (hother j hji).symm) (fun _ => hτi) (hi.2 hτi))
    exact hτi (heq ▸ hi.2 hτi)

/-- No clause is open, and the variables are rigid for the models of the object. -/
structure Fixes (solver : IpasirSolver) (vars : Fin n → ℤ) : Prop where
  closed : solver.openClause = []
  rigid : ∀ i, Rigid solver.Holds (vars i).natAbs

theorem Fixes.push {solver : IpasirSolver} (h : Fixes solver vars) (m : PartialModel) (c : Clause) :
    Fixes ((solver.satisfied m).push c) vars := by
  refine ⟨rfl, fun i => (h.rigid i).mono fun τ hτ => ?_⟩
  have hclosed : (solver.satisfied m).openClause = [] := h.closed
  exact ((IpasirSolver.holds_push hclosed c).1 hτ).1

theorem fixes_addStbTestClauses (hg : Grounds aaf grounded) :
    Fixes (addStbTestClauses satInit (numberVars n 1).1 aaf grounded) (numberVars n 1).1 := by
  have hpos := numberVars_pos n
  have hinj := numberVars_injective n
  have hdesc := addStbTestClauses_describes hpos hinj hg
  exact ⟨hdesc.closed, fun i => (rigid_stable hpos hinj i).mono hdesc.sound⟩

/-- The models found have no open variables, so their negative values are read as well. -/
theorem lockstep_cestRound (ω : SatOracle) (hpos : ∀ i, 0 < vars i) {p p' : IpasirSolver × Int32}
    (hfixes : Fixes p.1 vars) (h : Alike false p.1 p'.1) (hcount : p.2 = p'.2) :
    Lockstep (LoopStep.Rel (fun p p' : IpasirSolver × Int32 =>
        Fixes p.1 vars ∧ Alike false p.1 p'.1 ∧ p.2 = p'.2) (· = ·))
      (cestRound ω.answer vars p) (cestRound ω.complete.answer vars p') := by
  apply (lockstep_satSolve_found ω h rfl).bind
  intro r r' hr
  have halike := hr.alike h
  cases hr with
  | @sat m hm =>
    have hclause : negatives (m.fill false).model vars = negatives m vars := by
      simp only [negatives, (hfixes.rigid _).value_fill hm]
    have hread : readNegatives (p'.1.satisfied (m.fill false).model) vars =
        readNegatives (p.1.satisfied m) vars := by
      rw [readNegatives_of_sat rfl, readNegatives_of_sat rfl]
      exact congrArg (fun xs : List (Fin n) => pure (xs.map vars)) hclause
    apply Lockstep.ite _ (lockstep_pure (.exit hcount))
    rw [hread, readNegatives_of_sat rfl, pure_bind, pure_bind, hcount]
    apply Lockstep.ite
    · exact lockstep_pure (.exit rfl)
    · refine lockstep_pure (.again ⟨?_, halike.alike.satAddClause _ _, rfl⟩)
      rw [satAddClause_eq fun l => ne_zero_of_mem_map fun i => (hpos i).ne']
      exact hfixes.push m _
  | unsat => exact lockstep_pure (.exit hcount)

theorem solveCest_complete (ω : SatOracle) (hg : Grounds aaf grounded) :
    solveCest ω.answer aaf grounded = solveCest ω.complete.answer aaf grounded := by
  rw [solveCest, solveCest]
  apply Lockstep.eq
  have hloop : Lockstep (· = ·)
      (loop (cestRound ω.answer (numberVars n 1).1)
        (addStbTestClauses satInit (numberVars n 1).1 aaf grounded, 0))
      (loop (cestRound ω.complete.answer (numberVars n 1).1)
        (addStbTestClauses satInit (numberVars n 1).1 aaf grounded, 0)) := by
    apply Lockstep.loop (fun p p' => Fixes p.1 (numberVars n 1).1 ∧ Alike false p.1 p'.1 ∧ p.2 = p'.2)
      _ ⟨fixes_addStbTestClauses hg, .refl false _, rfl⟩
    rintro p p' ⟨hfixes, h, hcount⟩
    exact lockstep_cestRound ω (numberVars_pos n) hfixes h hcount
  apply hloop.bind
  rintro count _ rfl
  exact lockstep_of_eq rfl

end Stable

section Ideal
variable (ω : SatOracle) {aaf : AAF n} {grounded : Labeling} {inVars : Fin n → ℤ}

/-- States of the loop over admissible sets with objects that look alike. -/
structure PscAlike (st st' : PscState n) : Prop where
  solver : Alike false st.solver st'.solver
  psc : st.psc = st'.psc
  onerunonly : st.onerunonly = st'.onerunonly

theorem lockstep_pscRound {v : Query → Bool} (hpos : ∀ i, 0 < inVars i) {st st' : PscState n}
    (h : PscAlike st st') (hassume : st.solver.assumptions = [])
    (hv : ∀ q : Query, q.assumptions = [] → v q = false) :
    Lockstep (LoopStep.Rel
        (fun st st' => PscAlike st st' ∧ st.solver.assumptions = []) (· = ·))
      (pscRound ω.answer aaf inVars st) (pscRound (ω.fillBy v).answer aaf inVars st') := by
  rw [pscRound, pscRound, addAttackers_eq, addAttackers_eq, ← h.psc, ← h.onerunonly]
  dsimp only
  apply Lockstep.ite
  · exact lockstep_pure (.exit rfl)
  · have hadd := (Alike.foldl (fun _ _ l h => Alike.satAdd h l)
      ((st.psc.elementsArr.flatMap aaf.parents).map inVars) h.solver).satAdd 0
    apply (lockstep_satSolve ω hadd (hv _ _)).bind
    · rintro ⟨sat, _⟩ ⟨_, _⟩ ⟨rfl, hsolver, hnone⟩
      dsimp only
      rw [removeChildren_congr hsolver hpos]
      apply Lockstep.ite
      · exact lockstep_pure (.exit rfl)
      · apply lockstep_bind
        exact fun psc => lockstep_pure (.again ⟨⟨hsolver, rfl, rfl⟩, hnone⟩)
    · rw [satAdd_zero_foldl fun l => ne_zero_of_mem_map fun i => (hpos i).ne']
      exact hassume

variable (aaf) in
theorem pscLoop_fillBy {v : Query → Bool} (hpos : ∀ i, 0 < inVars i) (st : PscState n)
    (hassume : st.solver.assumptions = []) (hv : ∀ q : Query, q.assumptions = [] → v q = false) :
    loop (pscRound ω.answer aaf inVars) st = loop (pscRound (ω.fillBy v).answer aaf inVars) st := by
  apply Lockstep.eq
  apply Lockstep.loop (fun st st' => PscAlike st st' ∧ st.solver.assumptions = []) _
    ⟨⟨.refl false _, rfl, rfl⟩, hassume⟩
  rintro st st' ⟨h, hassume⟩
  exact lockstep_pscRound ω hpos h hassume hv

theorem addAdmTestClauses_assumptions (hg : Grounds aaf grounded) :
    (addAdmTestClauses satInit (numberPairs n 1).1 (numberPairs n 1).2.1 aaf grounded).2.assumptions =
      [] :=
  have hv := labelVars_numberPairs n Int.one_pos
  ((addAdmTestClauses_encodes hv hg).describes hv).unassumed

theorem computeIdeal_complete (hg : Grounds aaf grounded) :
    computeIdeal ω.answer aaf grounded = computeIdeal ω.complete.answer aaf grounded := by
  have hpos := (labelVars_numberPairs n Int.one_pos).in_pos
  have hloop := pscLoop_fillBy ω aaf (v := fun _ => false) hpos ⟨_, pscStart grounded, true⟩
    (addAdmTestClauses_assumptions hg) fun _ _ => rfl
  rw [computeIdeal, computeIdeal]
  exact congrArg (· >>= fun r : RaSet n × Bool =>
    if r.2 then pure (copyIn grounded)
    else if r.1.numberOfElements = 0 then pure r.1
    else removeUndefended aaf (keepUnattacked aaf r.1)) hloop

end Ideal

end TaasFudge
