import TaasFudge.Tasks.RangeProtocol

/-! # The tasks and the call protocol

Sixteen of the eighteen tasks respect the protocol of ipasir.h on every framework. The
decision tasks for stage semantics do exactly when their inner object never finds a
model.
-/

namespace TaasFudge

open Dimacs

variable {n : ℕ}

/-- A call of a task function with its own parameters. -/
inductive TaskCall (n : ℕ) where
  | dspr (arg : Fin n) (doPrint : Bool)
  | ideal
  | seid
  | dsid (arg : Fin n) (doPrint : Bool)
  | eapr
  | dcco (arg : Fin n) (doPrint : Bool)
  | sest
  | dcst (arg : Fin n) (doPrint : Bool)
  | dsst (arg : Fin n) (doPrint : Bool)
  | sepr (initialAdmSet : Option (RaSet n))
  | sesst
  | sestg
  | dcsst (arg : Fin n) (doPrint : Bool)
  | dssst (arg : Fin n) (doPrint : Bool)
  | dcstg (arg : Fin n) (doPrint : Bool)
  | dsstg (arg : Fin n) (doPrint : Bool)
  | cest
  | ceco
  | cepr

namespace TaskCall

/-- The world that a run with the bound `k` leaves behind, finished or not. -/
def after (ω : Oracle) (aaf : AAF n) (grounded : Labeling) (k : ℕ) (w : World) :
    TaskCall n → World
  | dspr arg doPrint => (solveDspr ω aaf grounded arg doPrint k w).2
  | ideal => (computeIdeal ω aaf grounded k w).2
  | seid => (solveSeid ω aaf grounded k w).2
  | dsid arg doPrint => (solveDsid ω aaf grounded arg doPrint k w).2
  | eapr => (solveEapr ω aaf grounded k w).2
  | dcco arg doPrint => (solveDcco ω aaf grounded arg doPrint k w).2
  | sest => (solveSest ω aaf grounded k w).2
  | dcst arg doPrint => (solveDcst ω aaf grounded arg doPrint k w).2
  | dsst arg doPrint => (solveDsst ω aaf grounded arg doPrint k w).2
  | sepr initialAdmSet => (solveSepr ω aaf grounded initialAdmSet k w).2
  | sesst => (solveSesst ω aaf grounded k w).2
  | sestg => (solveSestg ω aaf grounded k w).2
  | dcsst arg doPrint => (solveDcsst ω aaf grounded arg doPrint k w).2
  | dssst arg doPrint => (solveDssst ω aaf grounded arg doPrint k w).2
  | dcstg arg doPrint => (solveDcstg ω aaf grounded arg doPrint k w).2
  | dsstg arg doPrint => (solveDsstg ω aaf grounded arg doPrint k w).2
  | cest => (solveCest ω aaf grounded k w).2
  | ceco => (solveCeco ω aaf grounded k w).2
  | cepr => (solveCepr ω aaf grounded k w).2

/-- The frameworks on which a call respects the protocol: all, except that a query for stage
semantics leaves no choice besides its argument, or the grounded labeling is total. -/
def Allowed (aaf : AAF n) : TaskCall n → Prop
  | dcstg arg _ => aaf.framework.GroundedTotal ∨
      ∀ b, b ≠ arg → ¬ aaf.framework.ConflictFree {arg, b}
  | dsstg arg _ => aaf.framework.GroundedTotal ∨ ∀ b, b ≠ arg → ¬ aaf.framework.ConflictFree {b}
  | _ => True

end TaskCall

section Stage
variable {aaf : AAF n} {arg : Fin n} {doPrint : Bool}

theorem respects_solveDcstg (ω : SatOracle) (h : (TaskCall.dcstg arg doPrint).Allowed aaf) :
    Respects (solveDcstg ω.answer aaf (computeGrounded aaf).1 arg doPrint) fun _ => True :=
  respects_rangeQuery_of_unique rfl (computeGrounded_represents aaf) (S := {arg})
    (h.imp_right fun h _ hT hm => hT.eq_singleton (hm.2 rfl) h)

theorem respects_solveDsstg (ω : SatOracle) (h : (TaskCall.dsstg arg doPrint).Allowed aaf) :
    Respects (solveDsstg ω.answer aaf (computeGrounded aaf).1 arg doPrint) fun _ => True :=
  respects_rangeQuery_of_unique rfl (computeGrounded_represents aaf) (S := ∅)
    (h.imp_right fun h _ hT hm => hT.eq_empty (fun hmem => nomatch hm.1 hmem) h)

/-- Extending the argument by another one that it is not in conflict with. -/
theorem solveDcstg_broken (h : ¬ (TaskCall.dcstg arg doPrint).Allowed aaf) :
    ∃ ω : TotalOracle, Broken ((TaskCall.dcstg arg doPrint).after ω.answer aaf
      (computeGrounded aaf).1 1 ⟨0, "", true⟩) := by
  obtain ⟨htotal, b, hb, hcf⟩ : ¬ aaf.framework.GroundedTotal ∧
      ∃ b, b ≠ arg ∧ aaf.framework.ConflictFree {arg, b} := by
    simpa only [TaskCall.Allowed, not_or, not_forall, not_not, exists_prop] using h
  have hsub : ({arg} : Set (Fin n)) ⊆ {arg, b} := Set.singleton_subset_iff.2 (by simp)
  refine rangeQuery_broken rfl rfl (computeGrounded_represents aaf) htotal (hcf.mono hsub) hcf
    (iff_of_true rfl rfl) (iff_of_true (by simp) rfl) (aaf.framework.range_mono hsub)
    (Framework.subset_range (by simp : b ∈ _)) ?_ hb.symm
  rintro (hmem | ⟨c, hc, hcb⟩)
  · exact hb hmem
  · exact hcf c (hsub hc) b (by simp) hcb

/-- From no argument at all to one other than the argument of the query. -/
theorem solveDsstg_broken (h : ¬ (TaskCall.dsstg arg doPrint).Allowed aaf) :
    ∃ ω : TotalOracle, Broken ((TaskCall.dsstg arg doPrint).after ω.answer aaf
      (computeGrounded aaf).1 1 ⟨0, "", true⟩) := by
  obtain ⟨htotal, b, hb, hcf⟩ : ¬ aaf.framework.GroundedTotal ∧
      ∃ b, b ≠ arg ∧ aaf.framework.ConflictFree {b} := by
    simpa only [TaskCall.Allowed, not_or, not_forall, not_not, exists_prop] using h
  have hsub : (∅ : Set (Fin n)) ⊆ {b} := Set.empty_subset _
  refine rangeQuery_broken rfl rfl (computeGrounded_represents aaf) htotal (hcf.mono hsub) hcf
    (iff_of_false id nofun) (iff_of_false hb.symm nofun) (aaf.framework.range_mono hsub)
    (Framework.subset_range rfl) ?_ hb.symm
  rintro (hmem | ⟨c, hc, -⟩)
  · exact hmem
  · exact hc

end Stage

/-- A call never breaks the protocol, whatever a right solver answers, exactly on the allowed
frameworks. -/
theorem TaskCall.protocol_iff (aaf : AAF n) (call : TaskCall n) :
    (∀ (ω : SatOracle) (w : World) (k : ℕ), w.protocolOk = true →
      (call.after ω.answer aaf (computeGrounded aaf).1 k w).protocolOk = true) ↔
      call.Allowed aaf := by
  constructor
  · intro h
    by_contra hnot
    obtain ⟨ω, hω⟩ : ∃ ω : TotalOracle, Broken (call.after ω.answer aaf
        (computeGrounded aaf).1 1 ⟨0, "", true⟩) := by
      cases call with
      | dcstg arg doPrint => exact solveDcstg_broken hnot
      | dsstg arg doPrint => exact solveDsstg_broken hnot
      | _ => exact absurd trivial hnot
    exact absurd (hω.symm.trans (h ω.toSatOracle ⟨0, "", true⟩ 1 rfl)) (by decide)
  · intro h ω w k hw
    cases call with
    | dspr arg doPrint => exact (respects_solveDspr ω aaf _ arg doPrint).state hw
    | ideal => exact (respects_computeIdeal ω aaf _).state hw
    | seid => exact (respects_solveSeid ω aaf _).state hw
    | dsid arg doPrint => exact (respects_solveDsid ω aaf _ arg doPrint).state hw
    | eapr => exact (respects_solveEapr ω aaf _).state hw
    | dcco arg doPrint => exact (respects_solveDcco ω aaf _ arg doPrint).state hw
    | sest => exact (respects_solveSest ω aaf _).state hw
    | dcst arg doPrint => exact (respects_solveDcst ω aaf _ arg doPrint).state hw
    | dsst arg doPrint => exact (respects_solveDsst ω aaf _ arg doPrint).state hw
    | sepr initialAdmSet => exact (respects_solveSepr ω aaf _ initialAdmSet).state hw
    | sesst => exact (respects_solveSeRange ω aaf _ addAdmTestClauses).state hw
    | sestg => exact (respects_solveSeRange ω aaf _ addCfTestClauses).state hw
    | dcsst arg doPrint => exact (respects_solveDcsst ω aaf _ arg doPrint).state hw
    | dssst arg doPrint => exact (respects_solveDssst ω aaf _ arg doPrint).state hw
    | dcstg arg doPrint => exact (respects_solveDcstg ω h).state hw
    | dsstg arg doPrint => exact (respects_solveDsstg ω h).state hw
    | cest => exact (respects_solveCest ω aaf _).state hw
    | ceco => exact (respects_solveCeco ω aaf _).state hw
    | cepr => exact (respects_solveCepr ω aaf _).state hw

def mutualAttack : AAF 3 :=
  ((AAF.withoutAttacks fun i => toString ((i : ℕ) + 1)).addAttack 1 2).addAttack 2 1

/-- DC-STG for the first argument: a solver that finds the first argument, then the first two,
is read after it has been given a clause. -/
theorem dcstg_mutualAttack :
    ¬ ∀ (ω : SatOracle) (w : World) (k : ℕ), w.protocolOk = true →
      ((TaskCall.dcstg 0 true).after ω.answer mutualAttack (computeGrounded mutualAttack).1
        k w).protocolOk = true := by
  have hattacks : ∀ a b : Fin 3, mutualAttack.framework.attacks a b ↔
      (a = 1 ∧ b = 2) ∨ (a = 2 ∧ b = 1) := by
    simp only [AAF.attacks_iff]
    decide
  have hattacked : ∀ a : Fin 3, a ≠ 0 → ∃ b : Fin 3, (b = 1 ∧ a = 2) ∨ (b = 2 ∧ a = 1) := by decide
  have hzero : ∀ a : Fin 3, ¬ mutualAttack.framework.attacks 0 a := fun a => by
    rw [hattacks]
    decide +revert
  have hgrounded : mutualAttack.framework.grounded ⊆ {0} := by
    refine Framework.grounded_subset_of_closed fun a ha => ?_
    by_contra hne
    obtain ⟨b, hb⟩ := hattacked a hne
    obtain ⟨c, rfl, hcb⟩ := ha b ((hattacks b a).2 hb)
    exact hzero b hcb
  have hnot : ¬ (TaskCall.dcstg 0 true).Allowed mutualAttack := by
    rintro (htotal | hpair)
    · rcases htotal 1 with h | ⟨c, hc, hc₁⟩
      · exact absurd (hgrounded h) (by simp)
      · exact hzero 1 ((show c = 0 from hgrounded hc) ▸ hc₁)
    · refine hpair 1 (by decide) fun a ha b hb => ?_
      rw [hattacks]
      simp only [Set.mem_insert_iff, Set.mem_singleton_iff] at ha hb
      rcases ha with rfl | rfl <;> rcases hb with rfl | rfl <;> decide
  intro h
  obtain ⟨ω, hω⟩ := solveDcstg_broken hnot
  exact absurd (hω.symm.trans (h ω.toSatOracle ⟨0, "", true⟩ 1 rfl)) (by decide)

end TaasFudge
