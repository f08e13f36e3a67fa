import TaasFudge.Tasks.EaPr
import TaasFudge.Tasks.OneSided

/-! # A sign for each object

The counterexample tests of EA-PR read positive values from one object and negative values from the
other, which is the only one that is searched under the assumption that an argument is in the
attacking set. Completing the models by a value that depends on the query therefore changes nothing.
-/

namespace TaasFudge

open Dimacs Prog

variable {n : ℕ}

def extensionQuery (n : ℕ) (q : Query) : Bool := q.assumptions.any fun l => decide (l ≤ 2 * n)

theorem extensionQuery_eq_true {q : Query} {l : ℤ} (hl : l ∈ q.assumptions) (h : l ≤ 2 * n) :
    extensionQuery n q = true := List.any_eq_true.2 ⟨l, hl, decide_eq_true h⟩

theorem extensionQuery_eq_false {q : Query} (h : ∀ l ∈ q.assumptions, 2 * n < l) :
    extensionQuery n q = false := by
  rw [extensionQuery, List.any_eq_false]
  intro l hl
  have := h l hl
  rw [decide_eq_true_iff]
  omega

section Calls
variable {b : Bool} {solver solver' other other' : IpasirSolver} {vars inVars : Fin n → ℤ}

structure AlikeAssuming (b : Bool) (ls : List ℤ) (solver solver' : IpasirSolver) : Prop where
  alike : Alike b solver solver'
  assumptions : ∀ l ∈ ls, l ∈ solver.assumptions

theorem lockstep_satAssume_mem {ls : List ℤ} (h : AlikeAssuming b ls solver solver') (l : ℤ) :
    Lockstep (AlikeAssuming b (l :: ls)) (satAssume solver l) (satAssume solver' l) := by
  obtain ⟨h, hls⟩ := h
  cases h with
  | model h =>
    refine lockstep_atomic fun _ => ⟨rfl, .model h, ?_⟩
    intro l' hl'
    rcases List.mem_cons.1 hl' with rfl | hl'
    · exact List.mem_append_right _ (List.mem_singleton_self _)
    · exact List.mem_append_left _ (hls l' hl')

theorem lockstep_assumePositives {ls : List ℤ} (h : Alike false solver solver')
    (hpos : ∀ i, 0 < vars i) (hother : AlikeAssuming b ls other other') :
    Lockstep (AlikeAssuming b ls) (assumePositives solver vars other)
      (assumePositives solver' vars other') := by
  have hread := fun i => satPos_congr h (hpos i)
  simp only [assumePositives, hread]
  apply Lockstep.foldlM (AlikeAssuming b ls) _ _ hother
  intro other other' i hother
  apply lockstep_bind
  intro pos
  apply Lockstep.ite
  · apply (lockstep_satAssume_mem hother _).mono
    exact fun _ _ h => ⟨h.alike, fun l hl => h.assumptions l (List.mem_cons_of_mem _ hl)⟩
  · exact lockstep_pure hother

@[simp] theorem satAdd_assumptions (solver : IpasirSolver) (l : ℤ) :
    (satAdd solver l).assumptions = solver.assumptions := by
  rw [satAdd]
  split_ifs <;> rfl

structure AlikeFree (solver solver' : IpasirSolver) : Prop where
  alike : Alike false solver solver'
  unassumed : solver.assumptions = []

theorem AlikeFree.satAdd (h : AlikeFree solver solver') (l : ℤ) :
    AlikeFree (satAdd solver l) (TaasFudge.satAdd solver' l) :=
  ⟨h.alike.satAdd l, (satAdd_assumptions solver l).trans h.unassumed⟩

theorem AlikeFree.addClause (h : AlikeFree solver solver') (c : Clause) :
    AlikeFree (c.foldl TaasFudge.satAdd solver) (c.foldl TaasFudge.satAdd solver') := by
  induction c generalizing solver solver' with
  | nil => exact h
  | cons l c ih => exact ih (h.satAdd l)

theorem lockstep_satAssume_free (h : AlikeFree solver solver') (l : ℤ) :
    Lockstep (fun s s' => Alike false s s' ∧ s.assumptions = [l]) (satAssume solver l)
      (satAssume solver' l) := by
  obtain ⟨h, hfree⟩ := h
  cases h with
  | model h =>
    refine lockstep_atomic fun _ => ⟨rfl, .model h, ?_⟩
    dsimp only
    rw [hfree, List.nil_append]

theorem lockstep_addNegatives (h : Alike true solver solver') (hpos : ∀ i, 0 < vars i)
    (hother : AlikeFree other other') : Lockstep AlikeFree (addNegatives solver vars other)
      (addNegatives solver' vars other') := by
  have hread := fun i => satNeg_congr h (hpos i)
  simp only [addNegatives, hread]
  have hfold : Lockstep AlikeFree
      ((List.finRange n).foldlM (fun (other : IpasirSolver) (i : Fin n) => do
        let neg ← satNeg solver (vars i)
        pure (if neg then satAdd other (vars i) else other)) other)
      ((List.finRange n).foldlM (fun (other : IpasirSolver) (i : Fin n) => do
        let neg ← satNeg solver (vars i)
        pure (if neg then satAdd other (vars i) else other)) other') := by
    apply Lockstep.foldlM AlikeFree _ _ hother
    intro other other' i hother
    apply lockstep_bind
    intro neg
    cases neg with
    | false => exact lockstep_pure hother
    | true => exact lockstep_pure (hother.satAdd _)
  apply hfold.bind
  exact fun _ _ h => lockstep_pure (h.satAdd 0)

/-- The search for an extension is the one whose models are completed by true. -/
theorem lockstep_extensionTest (ω : SatOracle) (hpos : ∀ i, 0 < inVars i)
    (hle : ∀ i, inVars i ≤ 2 * n) (arg : Fin n) (h : Alike false solver solver')
    (hother : Alike true other other') :
    Lockstep (AlikeFound true) (extensionTest ω.answer inVars arg solver other)
      (extensionTest (ω.fillBy (extensionQuery n)).answer inVars arg solver' other') := by
  have hstart : AlikeAssuming true [] other other' :=
    ⟨hother, fun _ hl => absurd hl List.not_mem_nil⟩
  apply (lockstep_satAssume_mem hstart (inVars arg)).bind
  intro other other' hother
  apply (lockstep_assumePositives h hpos hother).bind
  intro other other' hother
  apply lockstep_satSolve ω hother.alike
  exact extensionQuery_eq_true (hother.assumptions _ (List.mem_singleton_self _)) (hle arg)

end Calls

section Eapr
variable (ω : SatOracle) {aaf : AAF n} {grounded : Labeling}
  {inVars outVars inAttackedVars outAttackedVars : Fin n → ℤ} {arg : Fin n}

/-- States of a test with objects that look alike, each for its sign. -/
structure TestAlike (st st' : IpasirSolver × IpasirSolver) : Prop where
  admTest : Alike true st.1 st'.1
  attAdmTest : AlikeFree st.2 st'.2

theorem lockstep_eaprRound (arg : Fin n) (hpos : ∀ i, 0 < inVars i) (hle : ∀ i, inVars i ≤ 2 * n)
    (hlt : ∀ i, 2 * n < inAttackedVars i) {st st' : IpasirSolver × IpasirSolver}
    (h : TestAlike st st') : Lockstep (LoopStep.Rel TestAlike (· = ·))
      (eaprRound ω.answer inVars inAttackedVars arg st)
      (eaprRound (ω.fillBy (extensionQuery n)).answer inVars inAttackedVars arg st') := by
  apply (lockstep_satAssume_free h.attAdmTest _).bind
  rintro attAdmTest attAdmTest' ⟨hatt, hassumed⟩
  apply (lockstep_satSolve ω hatt _).bind
  · rintro ⟨sat, _⟩ ⟨_, _⟩ ⟨rfl, hatt, hfree⟩
    apply Lockstep.ite (lockstep_pure (.exit rfl))
    apply (lockstep_extensionTest ω hpos hle arg hatt h.admTest).bind
    rintro ⟨sat, _⟩ ⟨_, _⟩ ⟨rfl, hadm, -⟩
    apply Lockstep.ite (lockstep_pure (.exit rfl))
    apply (lockstep_addNegatives hadm hpos ⟨hatt, hfree⟩).bind
    exact fun _ _ hatt => lockstep_pure (.again ⟨hadm, hatt⟩)
  · apply extensionQuery_eq_false
    intro l hl
    have hmem : l ∈ [inAttackedVars arg] := hassumed ▸ hl
    rw [List.mem_singleton.1 hmem]
    exact hlt arg

theorem eaprTest_unassumed (hv : AttackTestVars aaf inVars outVars inAttackedVars outAttackedVars
      (4 * n + 1)) (hg : Grounds aaf grounded) (acc : RaSet n) :
    (imposeAccepted inVars inAttackedVars acc
      ((addAdmTestClauses satInit inVars outVars aaf grounded).2,
        attAdmTest inVars outVars inAttackedVars outAttackedVars aaf grounded)).2.assumptions = [] := by
  rw [imposeAccepted_eq hv.attacker.in_ne hv.attacked.in_ne]
  exact (IpasirSolver.pushAll_assumptions _).trans (attAdmTest_describes hv hg).unassumed

theorem eaprTest_fillBy (hv : AttackTestVars aaf inVars outVars inAttackedVars outAttackedVars
      (4 * n + 1)) (hg : Grounds aaf grounded) (hle : ∀ i, inVars i ≤ 2 * n)
    (hlt : ∀ i, 2 * n < inAttackedVars i) (acc : RaSet n) :
    eaprTest ω.answer aaf grounded inVars outVars inAttackedVars outAttackedVars acc arg =
      eaprTest (ω.fillBy (extensionQuery n)).answer aaf grounded inVars outVars inAttackedVars
        outAttackedVars acc arg := by
  rw [eaprTest, eaprTest]
  apply Lockstep.eq
  have hloop := Lockstep.loop TestAlike
    (fun _ _ h => lockstep_eaprRound ω arg hv.attacker.in_pos hle hlt h)
    ⟨.refl true _, .refl false _, eaprTest_unassumed hv hg acc⟩
  apply hloop.bind
  rintro accepted _ rfl
  exact lockstep_of_eq rfl

theorem addCredulous_congr {solver solver' : IpasirSolver} (h : Alike false solver solver')
    (hpos : ∀ i, 0 < inVars i) (psc acc spsc : RaSet n) :
    addCredulous grounded inVars solver' psc acc spsc =
      addCredulous grounded inVars solver psc acc spsc := by
  have hread := fun i => satPos_congr h (hpos i)
  simp only [addCredulous, hread]

/-- States of the loop over credulously accepted arguments with objects that look alike. -/
structure SpscAlike (st st' : IpasirSolver × RaSet n) : Prop where
  solver : AlikeFree st.1 st'.1
  spsc : st.2 = st'.2

theorem lockstep_spscRound {v : Query → Bool} (hv : ∀ q : Query, q.assumptions = [] → v q = false)
    (hpos : ∀ i, 0 < inVars i) (psc acc : RaSet n) {st st' : IpasirSolver × RaSet n}
    (h : SpscAlike st st') : Lockstep (LoopStep.Rel SpscAlike (· = ·))
      (spscRound ω.answer grounded inVars psc acc st)
      (spscRound (ω.fillBy v).answer grounded inVars psc acc st') := by
  rw [spscRound, spscRound, addOpen_eq, addOpen_eq, ← h.spsc]
  apply Lockstep.ite
  · exact lockstep_pure (.exit rfl)
  · have hadd := (h.solver.addClause ((openArgs psc acc st.2).map inVars)).satAdd 0
    apply (lockstep_satSolve ω hadd.alike (hv _ hadd.unassumed)).bind
    rintro ⟨sat, _⟩ ⟨_, _⟩ ⟨rfl, hsolver, hfree⟩
    dsimp only
    rw [addCredulous_congr hsolver hpos]
    apply Lockstep.ite
    · exact lockstep_pure (.exit rfl)
    · apply lockstep_bind
      exact fun spsc => lockstep_pure (.again ⟨⟨hsolver, hfree⟩, rfl⟩)

theorem spscLoop_fillBy {v : Query → Bool} (hv : ∀ q : Query, q.assumptions = [] → v q = false)
    (hpos : ∀ i, 0 < inVars i) (psc acc : RaSet n) (st : IpasirSolver × RaSet n)
    (hfree : st.1.assumptions = []) :
    loop (spscRound ω.answer grounded inVars psc acc) st =
      loop (spscRound (ω.fillBy v).answer grounded inVars psc acc) st := by
  apply Lockstep.eq
  apply Lockstep.loop SpscAlike _ ⟨⟨.refl false _, hfree⟩, rfl⟩
  exact fun st st' h => lockstep_spscRound ω hv hpos psc acc h

theorem extensionQuery_nil (q : Query) (hq : q.assumptions = []) : extensionQuery n q = false :=
  extensionQuery_eq_false (by rw [hq]; exact fun _ hl => absurd hl List.not_mem_nil)

variable (aaf) in
theorem solveEapr_fillBy (hg : Grounds aaf grounded) :
    solveEapr ω.answer aaf grounded =
      solveEapr (ω.fillBy (extensionQuery n)).answer aaf grounded := by
  have hv := attackTestVars_numberPairs aaf
  have hpos := hv.attacker.in_pos
  have hle : ∀ i, (numberPairs n 1).1 i ≤ 2 * n := by
    intro i
    rw [numberPairs_eq]
    dsimp only
    omega
  have hlt : ∀ i, 2 * (n : ℤ) < (numberPairs n (numberPairs n 1).2.2).1 i := by
    intro i
    simp only [numberPairs_eq]
    omega
  have hassume := addAdmTestClauses_assumptions hg
  have hpsc := pscLoop_fillBy ω aaf hpos ⟨_, pscStart grounded, true⟩ hassume
    (extensionQuery_nil (n := n))
  rw [solveEapr, solveEapr]
  dsimp only
  rw [hpsc]
  apply Lockstep.eq
  apply lockstep_bind
  rintro ⟨psc, onerunonly⟩
  apply Lockstep.ite (lockstep_of_eq rfl)
  apply Lockstep.ite (lockstep_of_eq rfl)
  apply lockstep_bind
  intro acc
  rw [spscLoop_fillBy ω (extensionQuery_nil (n := n)) hpos _ acc _ hassume]
  apply lockstep_bind
  intro spsc
  have htests : Lockstep (· = ·)
      (spsc.elementsArr.foldlM (eaprTest ω.answer aaf grounded (numberPairs n 1).1
        (numberPairs n 1).2.1 (numberPairs n (numberPairs n 1).2.2).1
        (numberPairs n (numberPairs n 1).2.2).2.1) acc)
      (spsc.elementsArr.foldlM (eaprTest (ω.fillBy (extensionQuery n)).answer aaf grounded
        (numberPairs n 1).1 (numberPairs n 1).2.1 (numberPairs n (numberPairs n 1).2.2).1
        (numberPairs n (numberPairs n 1).2.2).2.1) acc) := by
    apply Lockstep.foldlM (· = ·) _ _ rfl
    rintro acc _ arg rfl
    exact lockstep_of_eq (eaprTest_fillBy ω hv hg hle hlt acc)
  apply htests.bind
  rintro acc _ rfl
  exact lockstep_of_eq rfl

end Eapr

end TaasFudge
