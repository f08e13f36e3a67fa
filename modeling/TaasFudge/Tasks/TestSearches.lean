import TaasFudge.Tasks.DsPr
import TaasFudge.Tasks.EaPr
import TaasFudge.Tasks.Searches

/-! # How often the counterexample loops ask

DS-PR and EA-PR search for admissible sets that attack an admissible set with the argument.
Every round but the last blocks such a set for good, so there are no more rounds than
admissible sets above the grounded extension, and one more.
-/

namespace TaasFudge

open Dimacs Prog

variable {n : ℕ}

section Rounds
variable {ω : TotalOracle} {aaf : AAF n} {grounded : Labeling} {C : Set (Fin n)}
  {Ms : Set (Set (Fin n))} {arg : Fin n} {doPrint : Bool} {acc : RaSet n}
  {P : (Set (Fin n) × Set (Fin n)) × (Set (Fin n) × Set (Fin n)) → Prop}
  {inVars outVars inAttackedVars outAttackedVars : Fin n → ℤ}
  {st : IpasirSolver × IpasirSolver}

/-- The test whether an attacking set can be extended by the argument is one search. -/
theorem extensionTest_searches (ω : TotalOracle) (hv : LabelVars inVars outVars)
    {attAdmTest admTest : IpasirSolver}
    (hadm : admTest.Describes (labels inVars outVars) fun b =>
      aaf.framework.AdmissibleLabelling b.1 b.2 ∧ C ⊆ b.1)
    {τ : Assignment} (hsatState : attAdmTest.state = .sat) (hmodel : attAdmTest.model = τ.model)
    {Q : ℤ × IpasirSolver → World → Prop} {w : World}
    (hsat : ∀ (υ : Assignment) w',
      aaf.framework.AdmissibleLabelling (selected υ inVars) (selected υ outVars) →
      C ⊆ selected υ inVars → arg ∈ selected υ inVars → selected τ inVars ⊆ selected υ inVars →
      w'.calls = w.calls + 1 → Q (10, admTest.satisfied υ.model) w')
    (hunsat : ∀ w', w'.calls = w.calls + 1 → Q (20, admTest.refuted) w') :
    Total (extensionTest ω.answer inVars arg attAdmTest admTest) Q w := by
  have hclosed : (admTest.assume (inVars arg)).openClause = [] := hadm.closed
  rw [extensionTest, satAssume_of_closed hadm.closed, pure_bind,
    assumePositives_of_sat hsatState hclosed, pure_bind, hmodel]
  apply hadm.total_search ω (inVars arg :: (positives τ.model inVars).map inVars)
    (A := fun b => arg ∈ b.1 ∧ selected τ inVars ⊆ b.1)
  · intro υ
    rw [List.forall_mem_cons, lit_positives hv.in_pos]
    rfl
  · rintro υ w' ⟨hυ, hCυ⟩ ⟨hargυ, hτυ⟩ hw'
    exact hsat υ w' hυ hCυ hargυ hτυ hw'.2
  · intro w' _ hw'
    exact hunsat w' hw'.2

/-- A witness for NO is grown from an admissible set. -/
theorem witness_searches (hg : Grounds aaf grounded) (hin : ∀ i, 0 < inVars i)
    {solver : IpasirSolver} {τ : Assignment} (hstate : solver.state = .sat)
    (hmodel : solver.model = τ.model) (hadm : aaf.framework.Admissible (selected τ inVars))
    (w : World) :
    Total (do
      let initialAdmSet ← readPositives solver inVars (RaSet.initEmpty n)
      solveSepr ω.answer aaf grounded (some initialAdmSet))
      (fun _ w' => w'.calls ≤ w.calls + (n + 1)) w := by
  rw [readPositives_of_sat hstate, pure_bind, hmodel]
  apply solveSepr_searches hg
  rintro s hs
  cases hs
  rwa [toSet_foldl_positives hin]

/-- There are no more attacking sets than admissible sets above the grounded extension. -/
theorem FudgeInv.attackersLeft_le
    (h : FudgeInv aaf C arg P inVars outVars inAttackedVars outAttackedVars st Ms) :
    attackersLeft inVars outVars inAttackedVars outAttackedVars st.2 ≤
      {S | aaf.framework.AdmissibleAbove aaf.framework.grounded S}.ncard := by
  rw [attackersLeft, h.attAdmTest.remaining_eq]
  apply Set.ncard_le_ncard _ (Set.toFinite _)
  rintro _ ⟨b, ⟨hb, -⟩, rfl⟩
  exact ⟨hb.attackTest.attacker.admissible, hb.attackTest.attacker.grounded_in⟩

/-- What a round leaves: the invariant with fewer attacking sets after at most `c` searches, or a
result after at most `d`. -/
def RoundPost {α : Type} (aaf : AAF n) (C : Set (Fin n)) (arg : Fin n)
    (P : (Set (Fin n) × Set (Fin n)) × (Set (Fin n) × Set (Fin n)) → Prop)
    (inVars outVars inAttackedVars outAttackedVars : Fin n → ℤ) (st : IpasirSolver × IpasirSolver)
    (c d : ℕ) (w : World) : LoopStep (IpasirSolver × IpasirSolver) α → World → Prop :=
  LoopStep.post
    (fun st' w' => (∃ Ms, FudgeInv aaf C arg P inVars outVars inAttackedVars outAttackedVars
        st' Ms) ∧
      attackersLeft inVars outVars inAttackedVars outAttackedVars st'.2 <
        attackersLeft inVars outVars inAttackedVars outAttackedVars st.2 ∧
      w'.calls ≤ w.calls + c)
    fun _ w' => w'.calls ≤ w.calls + d

/-- The part after an attacking set was found: its extension is blocked, or there is none. -/
theorem blockOrExit_searches {α : Type} {d : ℕ} (ω : TotalOracle) (hv : LabelVars inVars outVars)
    (h : FudgeInv aaf C arg P inVars outVars inAttackedVars outAttackedVars st Ms) {τ : Assignment}
    (hτ : Unblocked aaf C Ms (twoLabels inVars outVars inAttackedVars outAttackedVars τ) ∧
      P (twoLabels inVars outVars inAttackedVars outAttackedVars τ))
    {exit : Prog World (LoopStep (IpasirSolver × IpasirSolver) α)} {w : World}
    (hexit : ∀ w', w'.calls = w.calls + 1 → Total exit
      (RoundPost aaf C arg P inVars outVars inAttackedVars outAttackedVars st 1 d w) w') :
    Total (do
      let (sat, admTest) ← extensionTest ω.answer inVars arg (st.2.satisfied τ.model) st.1
      if sat = 20 then exit
      else
        let attAdmTest ← addNegatives admTest inVars (st.2.satisfied τ.model)
        pure (.again (admTest, attAdmTest)))
      (RoundPost aaf C arg P inVars outVars inAttackedVars outAttackedVars st 1 d w) w := by
  apply Total.bind
  apply extensionTest_searches ω hv h.admTest (τ := τ) rfl rfl
  · intro υ w' hυ hC hargυ hsub hw'
    dsimp only
    rw [if_neg (by decide), addNegatives_of_sat rfl hv.in_ne, pure_bind, total_pure]
    obtain ⟨hinv, hlt⟩ := h.block hv hτ hυ hC hargυ hsub
    exact ⟨⟨_, hinv⟩, hlt, hw'.le⟩
  · intro w' hw'
    dsimp only
    rw [if_pos rfl]
    exact hexit w' hw'

theorem RoundPost.after {α : Type} {d : ℕ} {w w₁ w' : World}
    {x : LoopStep (IpasirSolver × IpasirSolver) α}
    (h : RoundPost aaf C arg P inVars outVars inAttackedVars outAttackedVars st 1 d w₁ x w')
    (hw₁ : w₁.calls = w.calls + 1) :
    RoundPost aaf C arg P inVars outVars inAttackedVars outAttackedVars st 2 (d + 1) w x w' := by
  cases x with
  | again st' =>
    obtain ⟨hinv, hlt, hw'⟩ := h
    exact ⟨hinv, hlt, by omega⟩
  | exit a =>
    dsimp only [RoundPost, LoopStep.post] at h ⊢
    omega

theorem dsprRound_searches (hg : Grounds aaf grounded)
    (hv : AttackTestVars aaf inVars outVars inAttackedVars outAttackedVars (4 * n + 1))
    (h : FudgeInv aaf ∅ arg (fun b => arg ∈ b.2.1) inVars outVars inAttackedVars outAttackedVars
      st Ms) (w : World) :
    Total (dsprRound ω.answer aaf grounded arg doPrint inVars st)
      (RoundPost aaf ∅ arg (fun b => arg ∈ b.2.1) inVars outVars inAttackedVars outAttackedVars st
        2 (n + 3) w) w := by
  apply Total.bind
  apply h.attAdmTest.total_search ω [] (A := fun _ => True) (fun τ => by simp)
  · intro τ w₁ hτ _ hw₁
    dsimp only
    rw [if_neg (by decide)]
    apply (blockOrExit_searches (d := n + 2) ω hv.attacker h hτ _).mono fun _ _ hx => hx.after hw₁.2
    intro w₂ hw₂
    rw [printWitness, if_pos rfl]
    apply Total.bind
    apply (report_searches fun w' => witness_searches hg hv.attacker.in_pos rfl rfl
      hτ.1.attackTest.attacker.admissible w').mono
    intro _ w₃ hw₃
    apply total_pure.2
    dsimp only [RoundPost, LoopStep.post]
    omega
  · intro w₁ _ hw₁
    dsimp only
    rw [if_pos rfl]
    apply Total.bind
    apply (report_searches (c := 0) fun w' => total_pure.2 le_rfl).mono
    intro _ w₂ hw₂
    apply total_pure.2
    dsimp only [RoundPost, LoopStep.post]
    omega

theorem eaprRound_searches
    (hv : AttackTestVars aaf inVars outVars inAttackedVars outAttackedVars (4 * n + 1))
    (h : FudgeInv aaf C arg (fun _ => True) inVars outVars inAttackedVars outAttackedVars st Ms)
    (w : World) :
    Total (eaprRound ω.answer inVars inAttackedVars arg st)
      (RoundPost aaf C arg (fun _ => True) inVars outVars inAttackedVars outAttackedVars st
        2 2 w) w := by
  rw [eaprRound, satAssume_of_closed h.attAdmTest.closed, pure_bind]
  apply Total.bind
  apply h.attAdmTest.total_search ω [inAttackedVars arg] (A := fun b => arg ∈ b.2.1)
    (fun τ => by simp [twoLabels])
  · intro τ w₁ hτ _ hw₁
    dsimp only
    rw [if_neg (by decide)]
    apply (blockOrExit_searches (d := 1) ω hv.attacker h hτ _).mono fun _ _ hx => hx.after hw₁.2
    exact fun w₂ hw₂ => total_pure.2 hw₂.le
  · intro w₁ _ hw₁
    dsimp only
    rw [if_pos rfl, total_pure]
    dsimp only [RoundPost, LoopStep.post]
    omega

/-- A loop of such rounds: two searches for each round, and the price of the last one. -/
theorem fudgeLoop_searches {α : Type} {d : ℕ}
    {body : IpasirSolver × IpasirSolver → Prog World (LoopStep (IpasirSolver × IpasirSolver) α)}
    (hround : ∀ st Ms w, FudgeInv aaf C arg P inVars outVars inAttackedVars outAttackedVars st Ms →
      Total (body st)
        (RoundPost aaf C arg P inVars outVars inAttackedVars outAttackedVars st 2 d w) w)
    (h : FudgeInv aaf C arg P inVars outVars inAttackedVars outAttackedVars st Ms) (w : World) :
    Total (Prog.loop body st) (fun _ w' => w'.calls ≤ w.calls +
      (2 * {S | aaf.framework.AdmissibleAbove aaf.framework.grounded S}.ncard + d)) w := by
  have hloop : Total (Prog.loop body st) (fun _ w' => True ∧ w'.calls ≤ w.calls +
      (2 * attackersLeft inVars outVars inAttackedVars outAttackedVars st.2 + d)) w := by
    apply Total.loop_priced (fun st' _ => ∃ Ms', FudgeInv aaf C arg P inVars outVars
      inAttackedVars outAttackedVars st' Ms')
      (fun st' => attackersLeft inVars outVars inAttackedVars outAttackedVars st'.2) _ ⟨Ms, h⟩
    rintro st' w' ⟨Ms', h'⟩
    apply (hround st' Ms' w' h').mono
    intro x w'' hx
    cases x with
    | again st'' => exact hx
    | exit a => exact ⟨trivial, hx⟩
  apply hloop.mono
  rintro _ w' ⟨-, hw'⟩
  have := h.attackersLeft_le
  omega

end Rounds

section Dspr
variable {ω : TotalOracle} {aaf : AAF n} {grounded : Labeling} {arg : Fin n} {doPrint : Bool}

theorem solveDspr_searches (hg : Grounds aaf grounded) (w : World) :
    Total (solveDspr ω.answer aaf grounded arg doPrint) (fun _ w' => w'.calls ≤ w.calls +
      (2 * {S | aaf.framework.AdmissibleAbove aaf.framework.grounded S}.ncard + (n + 5))) w := by
  have hv := attackTestVars_numberPairs aaf
  have hadm := (addAdmTestClauses_encodes hv.attacker hg).describes hv.attacker
  rw [solveDspr]
  dsimp only
  rw [satAssume_of_closed hadm.closed, pure_bind]
  apply Total.bind
  apply hadm.total_search ω [(numberPairs n 1).1 arg] (A := fun b => arg ∈ b.1) (fun τ => by simp)
  · intro τ w₁ hτ harg hw₁
    dsimp only
    rw [if_neg (by decide), addNegatives_of_sat rfl hv.attacker.in_ne, pure_bind]
    have hadm₁ := hadm.satisfied τ.model
    rw [satAssume_of_closed hadm₁.closed, pure_bind]
    apply Total.bind
    apply hadm₁.total_search ω [(numberPairs n 1).2.1 arg] (A := fun b => arg ∈ b.2)
      (fun τ => by simp)
    · intro υ w₂ hυ _ hw₂
      dsimp only
      rw [if_pos rfl]
      apply Total.bind
      apply (report_searches fun w' =>
        witness_searches hg hv.attacker.in_pos rfl rfl hυ.admissible w').mono
      intro _ w₃ hw₃
      apply total_pure.2
      omega
    · intro w₂ _ hw₂
      dsimp only
      rw [if_neg (by decide), satAddClause1_eq (hv.attacked.in_ne arg)]
      apply (fudgeLoop_searches (fun st Ms w' h => dsprRound_searches hg hv h w')
        (dsprStart_inv hv hg hadm₁.refuted hτ.admissible harg) w₂).mono
      intro _ w₃ hw₃
      omega
  · intro w₁ _ hw₁
    dsimp only
    rw [if_pos rfl, printWitness, if_pos rfl]
    apply Total.bind
    apply (report_searches fun w' => solveSepr_searches hg (by simp) w').mono
    intro _ w₂ hw₂
    apply total_pure.2
    omega

end Dspr

section Eapr
variable {ω : TotalOracle} {aaf : AAF n} {grounded : Labeling} {psc acc : RaSet n}
  {inVars outVars inAttackedVars outAttackedVars : Fin n → ℤ}

theorem costs_spscRound {ω : Oracle} (st : IpasirSolver × RaSet n) :
    Costs World.calls 1 (spscRound ω grounded inVars psc acc st) := by
  rw [spscRound]
  dsimp only
  apply ((costs_pure _).mono (Nat.zero_le 1)).ite
  apply costs_satSolve.bind_free
  rintro ⟨sat, solver⟩
  apply (costs_pure _).ite
  apply Costs.bind_free _ fun _ => costs_pure _
  apply costs_foldlM
  intro spsc i
  apply (costs_pure _).ite
  exact (costs_andM (costs_satPos _) (costs_pure _)).bind_free fun _ => costs_pure _

/-- The arguments that are credulously accepted are collected with one search for each. -/
theorem spscLoop_searches (hv : LabelVars inVars outVars) (hg : Grounds aaf grounded)
    (hpsc : psc.toSet = aaf.framework.superCore) (hacc : aaf.framework.grounded ⊆ acc.toSet)
    (w : World) :
    Total (Prog.loop (spscRound ω.answer grounded inVars psc acc)
      ((addAdmTestClauses satInit inVars outVars aaf grounded).2, RaSet.initEmpty n))
      (fun _ w' => w'.calls ≤ w.calls + (n + 1)) w := by
  have hstart : SpscInv aaf inVars outVars psc acc
      ((addAdmTestClauses satInit inVars outVars aaf grounded).2, RaSet.initEmpty n)
      fun b => aaf.framework.AdmissibleLabelling b.1 b.2 :=
    ⟨(addAdmTestClauses_encodes hv hg).describes hv, fun b hb => hb, fun b hb _ => hb, by simp⟩
  apply (Total.loop_rounds
    (fun st w' => (∃ R, SpscInv aaf inVars outVars psc acc st R) ∧ w'.stdout = w.stdout)
    (fun st => n - st.2.numberOfElements)
    (fun st w' h => h.1.elim fun R hR => total_spscRound ω hv hg hpsc hacc hR h.2)
    costs_spscRound ⟨⟨_, hstart⟩, rfl⟩).mono
  rintro _ w' ⟨-, hw'⟩
  dsimp only at hw'
  omega

theorem eaprTest_searches
    (hv : AttackTestVars aaf inVars outVars inAttackedVars outAttackedVars (4 * n + 1))
    (hg : Grounds aaf grounded) (arg : Fin n) (w : World) :
    Total (eaprTest ω.answer aaf grounded inVars outVars inAttackedVars outAttackedVars acc arg)
      (fun _ w' => w'.calls ≤ w.calls +
        (2 * {S | aaf.framework.AdmissibleAbove aaf.framework.grounded S}.ncard + 2)) w := by
  apply Total.bind
  apply (fudgeLoop_searches (fun st Ms w' h => eaprRound_searches hv h w')
    (eaprTest_inv hv hg) w).mono
  intro _ w' hw'
  exact total_pure.2 hw'

theorem solveEapr_searches (hg : Grounds aaf grounded) (w : World) :
    Total (solveEapr ω.answer aaf grounded) (fun _ w' => w'.calls ≤ w.calls + (2 * (n + 1) +
      n * (2 * {S | aaf.framework.AdmissibleAbove aaf.framework.grounded S}.ncard + 2))) w := by
  have hv := attackTestVars_numberPairs aaf
  rw [solveEapr]
  dsimp only
  apply Total.bind
  apply ((total_pscLoop ω hv.attacker hg w).and (pscLoop_searches hv.attacker hg w)).mono
  rintro ⟨psc, onerunonly⟩ w₁ ⟨⟨hpost, -⟩, hw₁⟩
  dsimp only
  split_ifs
  · apply total_atomic.2
    dsimp only
    omega
  · apply total_atomic.2
    dsimp only
    omega
  · have hpsc := toSet_addGrounded hg hpost.superCore
    apply Total.bind
    apply (total_removeUndefended _ w₁).mono
    rintro acc w₂ ⟨hacc, rfl⟩
    rw [toSet_keepUnattacked hpsc] at hacc
    have hideal := Framework.ideal_of_greatest hacc
    apply Total.bind
    apply (spscLoop_searches hv.attacker hg hpsc hideal.grounded_subset w₂).mono
    intro spsc w₃ hw₃
    apply Total.bind
    apply (Total.foldlM (fun pre (_ : RaSet n) w' => w'.calls ≤ w₃.calls + pre.length *
      (2 * {S | aaf.framework.AdmissibleAbove aaf.framework.grounded S}.ncard + 2)) _ _
      (by simp)).mono
    · intro acc' w₄ hw₄
      apply total_atomic.2
      have hlength : spsc.elementsArr.length ≤ n := spsc.numberOfElements_le
      have hmul := Nat.mul_le_mul_right
        (2 * {S | aaf.framework.AdmissibleAbove aaf.framework.grounded S}.ncard + 2) hlength
      dsimp only
      omega
    · intro pre arg _ acc' w' hw'
      apply (eaprTest_searches hv hg arg w').mono
      intro _ w'' hw''
      rw [List.length_append, List.length_singleton, Nat.add_mul, Nat.one_mul]
      omega

end Eapr

end TaasFudge
