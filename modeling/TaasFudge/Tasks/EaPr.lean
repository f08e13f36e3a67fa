import TaasFudge.Tasks.AttackTest
import TaasFudge.Tasks.SeId

/-! # EA-PR

All sceptically accepted arguments: the ideal extension first, then one
counterexample test for every other credulously accepted argument of the preferred
super-core. Arguments accepted earlier belong to every set considered later.
-/

namespace TaasFudge

open Dimacs

variable {n : ℕ}

section Program
variable (ω : Oracle) (aaf : AAF n) (grounded : Labeling)

/-- The clause asking for an argument of `psc` outside `acc` and `spsc`; the flag tells
whether there is none. -/
def addOpen (inVars : Fin n → ℤ) (psc acc spsc : RaSet n) (solver : IpasirSolver) :
    Bool × IpasirSolver :=
  psc.elementsArr.foldl (fun (st : Bool × IpasirSolver) i =>
    if !acc.contains i && !spsc.contains i then (false, satAdd st.2 (inVars i)) else st)
    (true, solver)

def addCredulous (inVars : Fin n → ℤ) (solver : IpasirSolver) (psc acc spsc : RaSet n) :
    Prog World (RaSet n) :=
  (List.finRange n).foldlM (fun (spsc : RaSet n) (i : Fin n) =>
    if grounded.labIn.get i || grounded.labOut.get i then pure spsc
    else do
      let credulous ← satPos solver (inVars i) <&&> pure (psc.contains i && !acc.contains i)
      pure (if credulous then spsc.add i else spsc)) spsc

def spscRound (inVars : Fin n → ℤ) (psc acc : RaSet n) (st : IpasirSolver × RaSet n) :
    Prog World (LoopStep (IpasirSolver × RaSet n) (RaSet n)) := do
  let (emptyclause, solver) := addOpen inVars psc acc st.2 st.1
  if emptyclause then pure (.exit st.2)
  else
    let (sat, solver) ← satSolve ω (satAdd solver 0)
    if sat = 20 then pure (.exit st.2)
    else
      let spsc ← addCredulous grounded inVars solver psc acc st.2
      pure (.again (solver, spsc))

/-- A round of the test of one argument; it ends with whether the argument is accepted. -/
def eaprRound (inVars inAttackedVars : Fin n → ℤ) (arg : Fin n)
    (st : IpasirSolver × IpasirSolver) :
    Prog World (LoopStep (IpasirSolver × IpasirSolver) Bool) := do
  let attAdmTest ← satAssume st.2 (inAttackedVars arg)
  let (sat, attAdmTest) ← satSolve ω attAdmTest
  if sat = 20 then pure (.exit true)
  else
    let (sat, admTest) ← extensionTest ω inVars arg attAdmTest st.1
    if sat = 20 then pure (.exit false)
    else
      let attAdmTest ← addNegatives admTest inVars attAdmTest
      pure (.again (admTest, attAdmTest))

def imposeAccepted (inVars inAttackedVars : Fin n → ℤ) (acc : RaSet n)
    (st : IpasirSolver × IpasirSolver) : IpasirSolver × IpasirSolver :=
  acc.elementsArr.foldl (fun (st : IpasirSolver × IpasirSolver) j =>
    (satAddClause1 st.1 (inVars j),
      satAddClause1 (satAddClause1 st.2 (inVars j)) (inAttackedVars j))) st

def eaprTest (inVars outVars inAttackedVars outAttackedVars : Fin n → ℤ) (acc : RaSet n)
    (arg : Fin n) : Prog World (RaSet n) := do
  let st := imposeAccepted inVars inAttackedVars acc
    ((addAdmTestClauses satInit inVars outVars aaf grounded).2,
      attAdmTest inVars outVars inAttackedVars outAttackedVars aaf grounded)
  let accepted ← Prog.loop (eaprRound ω inVars inAttackedVars arg) st
  pure (if accepted then acc.add arg else acc)

def addGrounded (psc : RaSet n) : RaSet n :=
  (List.finRange n).foldl (fun (psc : RaSet n) (i : Fin n) =>
    if grounded.labIn.get i then psc.add i else psc) psc

def solveEapr : Prog World Unit := do
  let (inVars, outVars, idx) := numberPairs n 1
  let (inAttackedVars, outAttackedVars, _) := numberPairs n idx
  let solver := (addAdmTestClauses satInit inVars outVars aaf grounded).2
  let (psc, onerunonly) ← Prog.loop (pscRound ω aaf inVars) ⟨solver, pscStart grounded, true⟩
  if onerunonly then printf (grounded.print aaf ++ "\n")
  else
    let psc := addGrounded grounded psc
    if psc.numberOfElements = 0 then printf (psc.print aaf)
    else
      let acc ← removeUndefended aaf (keepUnattacked aaf psc)
      let solver := (addAdmTestClauses satInit inVars outVars aaf grounded).2
      let spsc ← Prog.loop (spscRound ω grounded inVars psc acc) (solver, RaSet.initEmpty n)
      let acc ← spsc.elementsArr.foldlM
        (eaprTest ω aaf grounded inVars outVars inAttackedVars outAttackedVars) acc
      printf (acc.print aaf)

end Program

section Spsc
variable {aaf : AAF n} {grounded : Labeling} {inVars outVars : Fin n → ℤ} {psc acc : RaSet n}

def openArgs (psc acc spsc : RaSet n) : List (Fin n) :=
  psc.elementsArr.filter fun i => !acc.contains i && !spsc.contains i

theorem mem_openArgs {spsc : RaSet n} {i : Fin n} :
    i ∈ openArgs psc acc spsc ↔ i ∈ psc ∧ i ∉ acc ∧ i ∉ spsc := by
  simp [openArgs, RaSet.mem_def]

theorem addOpen_eq (spsc : RaSet n) (solver : IpasirSolver) :
    addOpen inVars psc acc spsc solver = ((openArgs psc acc spsc).isEmpty,
      ((openArgs psc acc spsc).map inVars).foldl satAdd solver) := by
  rw [addOpen, ← List.foldl_filter, ← openArgs, foldl_flagged, Bool.true_and]

theorem satisfies_openArgs {τ : Assignment} (spsc : RaSet n) :
    τ.Satisfies ((openArgs psc acc spsc).map inVars) ↔
      ∃ i ∈ selected τ inVars, i ∈ openArgs psc acc spsc := by
  rw [Assignment.satisfies_map]
  exact exists_congr fun i => and_comm

theorem addCredulous_of_sat {solver : IpasirSolver} (h : solver.state = .sat) (spsc : RaSet n) :
    addCredulous grounded inVars solver psc acc spsc =
      pure (((List.finRange n).filter fun i : Fin n =>
        !(grounded.labIn.get i || grounded.labOut.get i) &&
          (decide (0 < solver.model.value (inVars i)) &&
            (psc.contains i && !acc.contains i))).foldl RaSet.add spsc) := by
  have hbody : ∀ (spsc : RaSet n) (i : Fin n),
      (if grounded.labIn.get i || grounded.labOut.get i then pure spsc
      else do
        let credulous ← satPos solver (inVars i) <&&> pure (psc.contains i && !acc.contains i)
        pure (if credulous then spsc.add i else spsc) : Prog World (RaSet n)) =
      pure (if !(grounded.labIn.get i || grounded.labOut.get i) &&
          (decide (0 < solver.model.value (inVars i)) && (psc.contains i && !acc.contains i))
        then spsc.add i else spsc) := by
    intro spsc i
    rw [satPos_of_sat h, andM, pure_bind]
    rcases grounded.labIn.get i || grounded.labOut.get i
    · rcases decide (0 < solver.model.value (inVars i)) <;> rfl
    · rfl
  simp only [addCredulous, hbody, List.foldlM_pure, List.foldl_filter]

/-- The invariant: collected arguments are credulously accepted, and the object describes
every admissible labelling with an open argument. -/
structure SpscInv (aaf : AAF n) (inVars outVars : Fin n → ℤ) (psc acc : RaSet n)
    (st : IpasirSolver × RaSet n) (R : Set (Fin n) × Set (Fin n) → Prop) : Prop where
  describes : st.1.Describes (labels inVars outVars) R
  sound : ∀ b, R b → aaf.framework.AdmissibleLabelling b.1 b.2
  complete : ∀ b, aaf.framework.AdmissibleLabelling b.1 b.2 →
    (∃ i ∈ b.1, i ∈ openArgs psc acc st.2) → R b
  credulous : ∀ i ∈ st.2, ∃ S, aaf.framework.Admissible S ∧ i ∈ S

/-- The loop ends when it has collected the credulously accepted arguments of `psc`. -/
structure SpscPost (aaf : AAF n) (psc acc spsc : RaSet n) : Prop where
  credulous : ∀ i ∈ spsc, ∃ S, aaf.framework.Admissible S ∧ i ∈ S
  complete : ∀ i ∈ psc, (∃ S, aaf.framework.Admissible S ∧ i ∈ S) → i ∈ acc ∨ i ∈ spsc

theorem SpscInv.post {st : IpasirSolver × RaSet n} {R : Set (Fin n) × Set (Fin n) → Prop}
    (h : SpscInv aaf inVars outVars psc acc st R)
    (hno : ∀ b, R b → ¬ ∃ i ∈ b.1, i ∈ openArgs psc acc st.2) :
    SpscPost aaf psc acc st.2 := by
  refine ⟨h.credulous, fun i hi ⟨S, hS, hiS⟩ => ?_⟩
  by_contra hnot
  obtain ⟨P, hSP, hP⟩ := hS.exists_preferred
  have hopen : ∃ i ∈ P, i ∈ openArgs psc acc st.2 :=
    ⟨i, hSP hiS, mem_openArgs.2 ⟨hi, fun h => hnot (.inl h), fun h => hnot (.inr h)⟩⟩
  exact hno (P, _) (h.complete _ (hP.prop.labelling hP.grounded_subset) hopen) hopen

/-- What a model adds: the labels fixed by the grounded labeling never belong to open arguments. -/
theorem mem_foldl_credulous (hv : LabelVars inVars outVars) (hg : Grounds aaf grounded)
    (hpsc : psc.toSet = aaf.framework.superCore) (hacc : aaf.framework.grounded ⊆ acc.toSet)
    {τ : Assignment} {spsc : RaSet n} {i : Fin n} :
    i ∈ ((List.finRange n).filter fun i : Fin n =>
        !(grounded.labIn.get i || grounded.labOut.get i) &&
          (decide (0 < τ.model.value (inVars i)) &&
            (psc.contains i && !acc.contains i))).foldl RaSet.add spsc ↔
      i ∈ spsc ∨ i ∈ selected τ inVars ∧ i ∈ psc ∧ i ∉ acc := by
  rw [RaSet.mem_foldl_add]
  apply or_congr_right
  simp only [List.mem_filter, List.mem_finRange, true_and, Bool.and_eq_true,
    Bool.not_eq_true', Bool.or_eq_false_iff, decide_eq_true_eq, τ.value_pos_iff (hv.in_pos i),
    RaSet.contains_iff, RaSet.contains_eq_false_iff, mem_selected]
  apply and_iff_right_of_imp
  rintro ⟨-, hi, hia⟩
  rw [← Bool.not_eq_true, ← Bool.not_eq_true, hg.in_iff, hg.out_iff]
  have hi' : i ∈ aaf.framework.superCore := hpsc ▸ hi
  exact ⟨fun hin => hia (hacc hin), hi' _ Framework.grounded_complete.admissible⟩

/-- The round collects the open arguments of a model, of which there is at least one. -/
theorem SpscInv.next {st : IpasirSolver × RaSet n} {R : Set (Fin n) × Set (Fin n) → Prop}
    (h : SpscInv aaf inVars outVars psc acc st R) {b : Set (Fin n) × Set (Fin n)} (hb : R b)
    (hopen : ∃ i ∈ b.1, i ∈ openArgs psc acc st.2) {solver : IpasirSolver} {spsc : RaSet n}
    (hdesc : solver.Describes (labels inVars outVars)
      fun b => R b ∧ ∃ i ∈ b.1, i ∈ openArgs psc acc st.2)
    (hmem : ∀ i, i ∈ spsc ↔ i ∈ st.2 ∨ i ∈ b.1 ∧ i ∈ psc ∧ i ∉ acc) :
    SpscInv aaf inVars outVars psc acc (solver, spsc)
        (fun b => R b ∧ ∃ i ∈ b.1, i ∈ openArgs psc acc st.2) ∧
      n - spsc.numberOfElements < n - st.2.numberOfElements := by
  refine ⟨⟨hdesc, fun b hb => h.sound b hb.1, ?_, ?_⟩, RaSet.room_lt ?_⟩
  · rintro c hc ⟨i, hi, hio⟩
    obtain ⟨hip, hia, his⟩ := mem_openArgs.1 hio
    have hio' : i ∈ openArgs psc acc st.2 :=
      mem_openArgs.2 ⟨hip, hia, fun h => his ((hmem i).2 (.inl h))⟩
    exact ⟨h.complete c hc ⟨i, hi, hio'⟩, i, hi, hio'⟩
  · intro i hi
    rcases (hmem i).1 hi with hi | ⟨hi, -⟩
    · exact h.credulous i hi
    · exact ⟨_, (h.sound _ hb).admissible, hi⟩
  · obtain ⟨i, hi, hio⟩ := hopen
    obtain ⟨hip, hia, his⟩ := mem_openArgs.1 hio
    exact (Set.ssubset_iff_of_subset fun j hj => (hmem j).2 (.inl hj)).2
      ⟨i, (hmem i).2 (.inr ⟨hi, hip, hia⟩), his⟩

theorem total_spscRound (ω : TotalOracle) (hv : LabelVars inVars outVars)
    (hg : Grounds aaf grounded) (hpsc : psc.toSet = aaf.framework.superCore)
    (hacc : aaf.framework.grounded ⊆ acc.toSet) {st : IpasirSolver × RaSet n}
    {R : Set (Fin n) × Set (Fin n) → Prop} {w₀ w : World}
    (h : SpscInv aaf inVars outVars psc acc st R) (hw : w.stdout = w₀.stdout) :
    Prog.Total (spscRound ω.answer grounded inVars psc acc st) (LoopStep.post
      (fun st' w' => ((∃ R', SpscInv aaf inVars outVars psc acc st' R') ∧
        w'.stdout = w₀.stdout) ∧ n - st'.2.numberOfElements < n - st.2.numberOfElements)
      fun spsc w' => SpscPost aaf psc acc spsc ∧ w'.stdout = w₀.stdout) w := by
  rw [spscRound, addOpen_eq]
  dsimp only
  split_ifs with hempty
  · have hnone : ∀ b, R b → ¬∃ i ∈ b.1, i ∈ openArgs psc acc st.2 := by
      rintro b - ⟨i, -, hi⟩
      rw [List.isEmpty_iff.1 hempty] at hi
      exact List.not_mem_nil hi
    exact Prog.total_pure.2 ⟨h.post hnone, hw⟩
  · rw [satAdd_zero_foldl fun l => ne_zero_of_mem_map hv.in_ne]
    have hdesc := h.describes.push (P := fun b => ∃ i ∈ b.1, i ∈ openArgs psc acc st.2)
      fun τ => satisfies_openArgs st.2
    refine Prog.Total.bind (hdesc.total_satSolve ω [] (A := fun _ => True) (fun τ => by simp) ?_ ?_)
    · rintro τ w₁ ⟨hτ, hopen⟩ - hw₁
      dsimp only
      rw [if_neg (by decide), addCredulous_of_sat rfl, pure_bind, Prog.total_pure]
      obtain ⟨hinv, hlt⟩ := h.next hτ hopen (hdesc.satisfied τ.model)
        fun i => mem_foldl_credulous hv hg hpsc hacc
      exact ⟨⟨⟨_, hinv⟩, hw₁.trans hw⟩, hlt⟩
    · intro w₁ hno hw₁
      dsimp only
      rw [if_pos rfl, Prog.total_pure]
      exact ⟨h.post fun b hb hopen => hno b ⟨hb, hopen⟩ trivial, hw₁.trans hw⟩

theorem total_spscLoop (ω : TotalOracle) (hv : LabelVars inVars outVars)
    (hg : Grounds aaf grounded) (hpsc : psc.toSet = aaf.framework.superCore)
    (hacc : aaf.framework.grounded ⊆ acc.toSet) (w : World) :
    Prog.Total (Prog.loop (spscRound ω.answer grounded inVars psc acc)
      ((addAdmTestClauses satInit inVars outVars aaf grounded).2, RaSet.initEmpty n))
      (fun spsc w' => SpscPost aaf psc acc spsc ∧ w'.stdout = w.stdout) w := by
  have hstart : SpscInv aaf inVars outVars psc acc
      ((addAdmTestClauses satInit inVars outVars aaf grounded).2, RaSet.initEmpty n)
      fun b => aaf.framework.AdmissibleLabelling b.1 b.2 :=
    ⟨(addAdmTestClauses_encodes hv hg).describes hv, fun b hb => hb, fun b hb _ => hb, by simp⟩
  exact Prog.Total.loop
    (fun st w' => (∃ R, SpscInv aaf inVars outVars psc acc st R) ∧ w'.stdout = w.stdout)
    (fun st => n - st.2.numberOfElements)
    (fun st w' ⟨⟨R, h⟩, hw'⟩ => total_spscRound ω hv hg hpsc hacc h hw') ⟨⟨_, hstart⟩, rfl⟩

end Spsc

section Test
variable {aaf : AAF n} {grounded : Labeling}
  {inVars outVars inAttackedVars outAttackedVars : Fin n → ℤ} {acc : RaSet n} {arg : Fin n}

theorem imposeAccepted_eq (hin : ∀ i, inVars i ≠ 0) (hatt : ∀ i, inAttackedVars i ≠ 0)
    (st : IpasirSolver × IpasirSolver) :
    imposeAccepted inVars inAttackedVars acc st =
      (st.1.pushAll (acc.elementsArr.map fun j => [inVars j]),
        st.2.pushAll (acc.elementsArr.flatMap fun j => [[inVars j], [inAttackedVars j]])) := by
  rw [imposeAccepted]
  induction acc.elementsArr generalizing st with
  | nil => rfl
  | cons j js ih =>
    rw [List.foldl_cons, ih, satAddClause1_eq (hin j), satAddClause1_eq (hin j),
      satAddClause1_eq (hatt j)]
    rfl

/-- The objects of a test before its first search: the core is the accepted set. -/
theorem eaprTest_inv (hv : AttackTestVars aaf inVars outVars inAttackedVars outAttackedVars
      (4 * n + 1)) (hg : Grounds aaf grounded) :
    FudgeInv aaf acc.toSet arg (fun _ => True) inVars outVars inAttackedVars outAttackedVars
      (imposeAccepted inVars inAttackedVars acc
        ((addAdmTestClauses satInit inVars outVars aaf grounded).2,
          attAdmTest inVars outVars inAttackedVars outAttackedVars aaf grounded)) ∅ := by
  rw [imposeAccepted_eq hv.attacker.in_ne hv.attacked.in_ne]
  refine ⟨?_, ?_, fun M hM => absurd hM (Set.notMem_empty M)⟩
  · exact ((addAdmTestClauses_encodes hv.attacker hg).describes hv.attacker).pushAll
      (P := fun b => acc.toSet ⊆ b.1) fun τ => satisfies_units _
  · refine ((attAdmTest_describes hv hg).pushAll
      (P := fun b => ∀ j ∈ acc, j ∈ b.1.1 ∧ j ∈ b.2.1) fun τ => ?_).congr fun b => ?_
    · constructor
      · intro h j hj
        have h₁ := h [inVars j] (List.mem_flatMap.2 ⟨j, hj, by simp⟩)
        have h₂ := h [inAttackedVars j] (List.mem_flatMap.2 ⟨j, hj, by simp⟩)
        exact ⟨by simpa [twoLabels] using h₁, by simpa [twoLabels] using h₂⟩
      · intro h c hc
        obtain ⟨j, hj, hc⟩ := List.mem_flatMap.1 hc
        have hboth := h j hj
        simp only [List.mem_cons, List.not_mem_nil, or_false] at hc
        rcases hc with rfl | rfl
        · simpa [twoLabels] using hboth.1
        · simpa [twoLabels] using hboth.2
    · constructor
      · rintro ⟨hb, hacc⟩
        exact ⟨⟨hb, fun j hj => (hacc j hj).1, fun j hj => (hacc j hj).2,
          fun M hM => absurd hM (Set.notMem_empty M)⟩, trivial⟩
      · rintro ⟨hb, -⟩
        exact ⟨hb.attackTest, fun j hj => ⟨hb.core_attacker hj, hb.core_attacked hj⟩⟩

theorem total_eaprRound (ω : TotalOracle)
    (hv : AttackTestVars aaf inVars outVars inAttackedVars outAttackedVars (4 * n + 1))
    (hC : ∀ c ∈ acc, aaf.framework.Sceptical c)
    (hcred : ∃ S, aaf.framework.Admissible S ∧ arg ∈ S)
    {st : IpasirSolver × IpasirSolver} {Ms : Set (Set (Fin n))} {w₀ w : World}
    (h : FudgeInv aaf acc.toSet arg (fun _ => True) inVars outVars inAttackedVars outAttackedVars
      st Ms) (hw : w.stdout = w₀.stdout) :
    Prog.Total (eaprRound ω.answer inVars inAttackedVars arg st) (LoopStep.post
      (fun st' w' => ((∃ Ms', FudgeInv aaf acc.toSet arg (fun _ => True) inVars outVars
          inAttackedVars outAttackedVars st' Ms') ∧ w'.stdout = w₀.stdout) ∧
        attackersLeft inVars outVars inAttackedVars outAttackedVars st'.2 <
          attackersLeft inVars outVars inAttackedVars outAttackedVars st.2)
      fun accepted w' => (accepted = true ↔ aaf.framework.Sceptical arg) ∧
        w'.stdout = w₀.stdout) w := by
  rw [eaprRound, satAssume_of_closed h.attAdmTest.closed, pure_bind]
  refine Prog.Total.bind (h.attAdmTest.total_satSolve ω [inAttackedVars arg]
    (A := fun b => arg ∈ b.2.1) (fun τ => by simp [twoLabels]) ?_ ?_)
  · rintro τ w₁ ⟨hτ, -⟩ - hw₁
    dsimp only
    rw [if_neg (by decide)]
    refine Prog.Total.bind (total_extensionTest ω hv.attacker hC h.admTest (τ := τ) rfl rfl ?_ ?_)
    · intro υ w₂ hυ hCυ hargυ hsub hw₂
      dsimp only
      rw [if_neg (by decide), addNegatives_of_sat rfl hv.attacker.in_ne, pure_bind,
        Prog.total_pure]
      obtain ⟨hinv, hlt⟩ := h.block hv.attacker ⟨hτ, trivial⟩ hυ hCυ hargυ hsub
      exact ⟨⟨⟨_, hinv⟩, by rw [hw₂, hw₁, hw]⟩, hlt⟩
    · intro w₂ hne hw₂
      dsimp only
      rw [if_pos rfl, Prog.total_pure]
      refine ⟨iff_of_false (by simp) fun hscep => ?_, by rw [hw₂, hw₁, hw]⟩
      have hadm := hτ.attackTest.attacker.admissible
      obtain ⟨P, hSP, hP⟩ := hadm.exists_preferred
      exact Framework.not_sceptical_of_not_extendable hC hne P hP hSP (hscep P hP)
  · intro w₁ hno hw₁
    dsimp only
    rw [if_pos rfl, Prog.total_pure]
    refine ⟨iff_of_true rfl ?_, hw₁.trans hw⟩
    exact sceptical_of_no_counterexample hC hcred h.blocked fun b hb => hno b ⟨hb, trivial⟩

/-- A test accepts the argument exactly if it is sceptically accepted. -/
theorem total_eaprTest (ω : TotalOracle)
    (hv : AttackTestVars aaf inVars outVars inAttackedVars outAttackedVars (4 * n + 1))
    (hg : Grounds aaf grounded) (hC : ∀ c ∈ acc, aaf.framework.Sceptical c)
    (hcred : ∃ S, aaf.framework.Admissible S ∧ arg ∈ S) (w : World) :
    Prog.Total (eaprTest ω.answer aaf grounded inVars outVars inAttackedVars outAttackedVars acc
      arg) (fun acc' w' => (∀ i, i ∈ acc' ↔ i ∈ acc ∨ i = arg ∧ aaf.framework.Sceptical arg) ∧
        w'.stdout = w.stdout) w := by
  refine Prog.Total.bind ((Prog.Total.loop
    (fun st w' => (∃ Ms, FudgeInv aaf acc.toSet arg (fun _ => True) inVars outVars inAttackedVars
      outAttackedVars st Ms) ∧ w'.stdout = w.stdout)
    (fun st => attackersLeft inVars outVars inAttackedVars outAttackedVars st.2)
    (fun st w' ⟨⟨Ms, h⟩, hw'⟩ => total_eaprRound ω hv hC hcred h hw')
    ⟨⟨∅, eaprTest_inv hv hg⟩, rfl⟩).mono ?_)
  rintro accepted w' ⟨hacc, hw'⟩
  refine Prog.total_pure.2 ⟨fun i => ?_, hw'⟩
  split_ifs with h
  · rw [RaSet.mem_add, and_iff_left (hacc.1 h)]
  · have hnot : ¬ aaf.framework.Sceptical arg := fun hs => h (hacc.2 hs)
    simp [hnot]

end Test

section Correctness
variable {aaf : AAF n} {grounded : Labeling}
  {inVars outVars inAttackedVars outAttackedVars : Fin n → ℤ} {psc acc spsc : RaSet n}

theorem mem_addGrounded (hg : Grounds aaf grounded) {i : Fin n} :
    i ∈ addGrounded grounded psc ↔ i ∈ psc ∨ i ∈ aaf.framework.grounded := by
  rw [addGrounded, ← List.foldl_filter, RaSet.mem_foldl_add, List.mem_filter, hg.in_iff]
  simp

/-- The grounded arguments are sceptically accepted, so they are in the core anyway. -/
theorem toSet_addGrounded (hg : Grounds aaf grounded)
    (hpsc : psc.toSet = aaf.framework.superCore) :
    (addGrounded grounded psc).toSet = aaf.framework.superCore := by
  ext i
  apply (mem_addGrounded hg).trans
  rw [← RaSet.mem_toSet, hpsc]
  exact or_iff_left_of_imp fun h => (Framework.sceptical_of_mem_grounded h).mem_superCore

/-- The tests one after another: the accepted set ends with all sceptically accepted arguments
of the list and stays inside the sceptically accepted ones. -/
theorem total_eaprTests (ω : TotalOracle)
    (hv : AttackTestVars aaf inVars outVars inAttackedVars outAttackedVars (4 * n + 1))
    (hg : Grounds aaf grounded) (hC : ∀ c ∈ acc, aaf.framework.Sceptical c)
    {args : List (Fin n)} (hcred : ∀ i ∈ args, ∃ S, aaf.framework.Admissible S ∧ i ∈ S)
    (w : World) :
    Prog.Total (args.foldlM (eaprTest ω.answer aaf grounded inVars outVars inAttackedVars
      outAttackedVars) acc) (fun acc' w' =>
        (∀ i, i ∈ acc' ↔ i ∈ acc ∨ i ∈ args ∧ aaf.framework.Sceptical i) ∧
          w'.stdout = w.stdout) w := by
  refine Prog.Total.foldlM (fun pre (acc' : RaSet n) (w' : World) =>
    (∀ i, i ∈ acc' ↔ i ∈ acc ∨ i ∈ pre ∧ aaf.framework.Sceptical i) ∧ w'.stdout = w.stdout)
    args ?_ ⟨by simp, rfl⟩
  rintro pre arg harg acc' w' ⟨hacc', hw'⟩
  have hC' : ∀ c ∈ acc', aaf.framework.Sceptical c := fun c hc =>
    ((hacc' c).1 hc).elim (hC c) fun h => h.2
  refine (total_eaprTest ω hv hg hC' (hcred arg harg) w').mono ?_
  rintro acc'' w'' ⟨hacc'', hw''⟩
  refine ⟨fun i => ?_, hw''.trans hw'⟩
  rw [hacc'', hacc', List.mem_append, List.mem_singleton, or_and_right, or_assoc]
  refine or_congr_right (or_congr_right ?_)
  constructor
  · rintro ⟨rfl, h⟩
    exact ⟨rfl, h⟩
  · rintro ⟨rfl, h⟩
    exact ⟨rfl, h⟩

/-- EA-PR prints the arguments that are in every preferred extension. -/
theorem total_solveEapr (ω : TotalOracle) (hg : Grounds aaf grounded) (w : World) :
    Prog.Total (solveEapr ω.answer aaf grounded) (fun _ w' => ∃ line,
      BracketLine aaf {i | aaf.framework.Sceptical i} line ∧ w'.stdout = w.stdout ++ line) w := by
  have hv := attackTestVars_numberPairs aaf
  rcases hnp : numberPairs n 1 with ⟨inVars, outVars, idx⟩
  rcases hnp' : numberPairs n idx with ⟨inAttackedVars, outAttackedVars, idx'⟩
  simp only [hnp, hnp'] at hv
  rw [solveEapr, hnp]
  dsimp only
  rw [hnp']
  dsimp only
  refine Prog.Total.bind ((total_pscLoop ω hv.attacker hg w).mono ?_)
  rintro ⟨psc, onerunonly⟩ w₁ ⟨hpost, hw₁⟩
  dsimp only
  have hsuper : ∀ i, aaf.framework.Sceptical i → i ∈ psc := fun i hi => by
    have hi' := hi.mem_superCore
    rwa [← hpost.superCore] at hi'
  split_ifs with hone hzero
  · -- the grounded extension is the only preferred extension
    have hdisj : ∀ i ∈ aaf.framework.grounded,
        i ∉ aaf.framework.attackedBy aaf.framework.grounded :=
      fun i hi ho => Framework.grounded_complete.notMem_of_grounded_attacks ho hi
    have hscep : {i | aaf.framework.Sceptical i} = aaf.framework.grounded :=
      Set.ext fun i => Framework.sceptical_iff_mem_grounded (hpost.ideal_grounded hone).2
    exact Prog.total_atomic.2 ⟨_, hscep ▸ hg.print_bracket aaf hdisj, by rw [hw₁]⟩
  · have hempty : ∀ i, i ∉ addGrounded grounded psc := fun i hi => by
      rw [RaSet.mem_def, List.eq_nil_of_length_eq_zero hzero] at hi
      exact List.not_mem_nil hi
    refine Prog.total_atomic.2 ⟨_, RaSet.print_bracket aaf (Set.ext fun i => ?_), by rw [hw₁]⟩
    exact iff_of_false (hempty i) fun hi =>
      hempty i ((mem_addGrounded hg).2 (.inl (hsuper i hi)))
  · have hpsc := toSet_addGrounded hg hpost.superCore
    refine Prog.Total.bind ((total_removeUndefended _ w₁).mono ?_)
    rintro acc w₂ ⟨hacc, rfl⟩
    rw [toSet_keepUnattacked hpsc] at hacc
    have hideal := Framework.ideal_of_greatest hacc
    refine Prog.Total.bind ((total_spscLoop ω hv.attacker hg hpsc hideal.grounded_subset w₂).mono ?_)
    rintro spsc w₃ ⟨hspsc, hw₃⟩
    have hC : ∀ c ∈ acc, aaf.framework.Sceptical c := fun c hc P hP =>
      hideal.1.subset_preferred P hP hc
    refine Prog.Total.bind ((total_eaprTests ω hv hg hC hspsc.credulous w₃).mono ?_)
    rintro acc' w₄ ⟨hacc', hw₄⟩
    refine Prog.total_atomic.2 ⟨_, RaSet.print_bracket aaf (Set.ext fun i => ?_),
      by rw [hw₄, hw₃, hw₁]⟩
    rw [RaSet.mem_toSet, hacc']
    constructor
    · rintro (hi | ⟨-, hi⟩)
      · exact hC i hi
      · exact hi
    · intro hi
      obtain ⟨P, hP⟩ := Framework.exists_preferred (F := aaf.framework)
      have hmem : i ∈ addGrounded grounded psc := (mem_addGrounded hg).2 (.inl (hsuper i hi))
      exact (hspsc.complete i hmem ⟨P, hP.prop, hi P hP⟩).imp_right fun h => ⟨h, hi⟩

/-- EA-PR prints one line, which lists the arguments that are in every preferred extension. -/
theorem solveEapr_prints (ω : TotalOracle) (aaf : AAF n) (w : World) :
    Prog.Total (solveEapr ω.answer aaf (computeGrounded aaf).1) (fun _ w' => ∃ line,
      BracketLine aaf {i | ∀ P, aaf.framework.Preferred P → i ∈ P} line ∧
        w'.stdout = w.stdout ++ line) w :=
  total_solveEapr ω (computeGrounded_represents aaf) w

end Correctness

end TaasFudge
