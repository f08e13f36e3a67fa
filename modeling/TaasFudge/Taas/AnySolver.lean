import TaasFudge.Taas.Answers
import TaasFudge.Tasks.OneSidedRange
import TaasFudge.Tasks.OpenDecisions
import TaasFudge.Tasks.TwoSigns

/-! # Problems that any solver solves

A solver may leave open what a formula does not need. Only the searches for preferred, semi-stable
and stage extensions and the count of preferred ones can be led astray by that. Every query is
answered correctly, and where its witness comes from such a search the set printed agrees with the
answer.
-/

namespace TaasFudge

open Dimacs

variable {n : ℕ}

/-- The witness of a query is the result of a search for a preferred or semi-stable extension. -/
def WitnessSearched {α : Type*} (F : Framework α) (a : α) : Mode → Semantics → Prop
  | .dc, .pr | .dc, .sst => a ∈ F.grounded
  | .ds, .pr => ¬ F.Sceptical a
  | .ds, .sst => a ∈ F.attackedBy F.grounded
  | _, _ => False

/-- No search for a preferred, semi-stable or stage extension is printed, and none is counted. -/
def Problem.Robust (F : Framework (Fin n)) : Problem n → Prop
  | query m σ a => ¬ WitnessSearched F a m σ
  | search σ => σ ≠ .pr ∧ σ ≠ .sst ∧ σ ≠ .stg
  | count κ => κ ≠ .pr
  | accepted => True

/-- What is left of a preferred or semi-stable extension when models have open variables: the set
defends a preferred extension, or no admissible set with at least its range leaves what it defends
and attacks. -/
structure Semantics.Nearly {α : Type*} (F : Framework α) (σ : Semantics) (E : Set α) : Prop where
  admissible : F.Admissible E
  grounded_subset : F.grounded ⊆ E
  preferred : σ = .pr → F.Preferred (F.characteristic E)
  largest : σ = .sst → ∀ S, F.Admissible S → F.grounded ⊆ S → F.range E ⊆ F.range S →
    F.range S ⊆ F.characteristic E ∪ F.attackedBy E

section Switch
variable (ω : SatOracle) (aaf : AAF n) (a : Fin n) {m : Mode} {σ : Semantics}

theorem solveSwitch_complete (hgr : σ ≠ .gr) (hco : m = .ds → σ ≠ .co) (hpr : m = .ds → σ ≠ .pr) :
    solveSwitch ω.answer ⟨m.track σ, some a⟩ aaf (computeGrounded aaf).1 =
      solveSwitch ω.complete.answer ⟨m.track σ, some a⟩ aaf (computeGrounded aaf).1 := by
  have hg := computeGrounded_represents aaf
  cases σ with
  | gr => exact absurd rfl hgr
  | id => rw [solveSwitch_id, solveSwitch_id, computeIdeal_complete ω hg]
  | co =>
    cases m with
    | dc =>
      rw [solveSwitch_dcco _ _ _ _ (.inl rfl), solveSwitch_dcco _ _ _ _ (.inl rfl),
        solveDcco_complete]
    | ds => exact absurd rfl (hco rfl)
  | pr =>
    cases m with
    | dc =>
      rw [solveSwitch_dcco _ _ _ _ (.inr rfl), solveSwitch_dcco _ _ _ _ (.inr rfl),
        solveDcco_complete]
    | ds => exact absurd rfl (hpr rfl)
  | st =>
    cases m with
    | dc => rw [solveSwitch_dcst, solveSwitch_dcst, solveDcst_complete]
    | ds => rw [solveSwitch_dsst, solveSwitch_dsst, solveDsst_complete]
  | sst =>
    cases m with
    | dc => simp [solveSwitch, Mode.track, solveDcsst, rangeQuery_complete ω positive_sst.1]
    | ds => simp [solveSwitch, Mode.track, solveDssst, rangeQuery_complete ω positive_sst.2]
  | stg =>
    cases m with
    | dc => simp [solveSwitch, Mode.track, solveDcstg, rangeQuery_complete ω positive_stg.1]
    | ds => simp [solveSwitch, Mode.track, solveDsstg, rangeQuery_complete ω positive_stg.2]

/-- The search that replaces a settled query about the ideal extension. -/
theorem solveSwitch_seid_complete (arg : Option (Fin n)) :
    solveSwitch ω.answer ⟨Semantics.id.seTrack, arg⟩ aaf (computeGrounded aaf).1 =
      solveSwitch ω.complete.answer ⟨Semantics.id.seTrack, arg⟩ aaf (computeGrounded aaf).1 := by
  rw [solveSwitch_seid, solveSwitch_seid, solveSeid, solveSeid,
    computeIdeal_complete ω (computeGrounded_represents aaf)]

end Switch

section Queries
variable (ω : SatOracle) (aaf : AAF n) (a : Fin n) {m : Mode} {σ : Semantics}

theorem taasSolve_settled_complete (hgr : σ ≠ .gr) (hco : m = .ds → σ ≠ .co)
    (hs : ¬ WitnessSearched aaf.framework a m σ) (h : Settled aaf.framework a m σ) :
    taasSolve aaf ⟨m.track σ, some a⟩ (solveSwitch ω.answer) =
      taasSolve aaf ⟨m.track σ, some a⟩ (solveSwitch ω.complete.answer) := by
  have hg := computeGrounded_represents aaf
  have hstg : σ ≠ .stg := by
    rintro rfl
    exact h
  have hseid := solveSwitch_seid_complete ω aaf (some a)
  by_cases hin : a ∈ aaf.framework.grounded
  · have hin' := (hg.in_iff a).2 hin
    cases m with
    | ds => rw [taasSolve_ds_in hin' hgr (hco rfl) hstg, taasSolve_ds_in hin' hgr (hco rfl) hstg]
    | dc =>
      cases σ with
      | co => rw [taasSolve_dcco_in hin', taasSolve_dcco_in hin']
      | gr => exact absurd rfl hgr
      | pr => exact absurd hin hs
      | st => exact absurd hin (Semantics.notMem_of_grounded_attacks (σ := .gr) (by simp) h rfl)
      | sst => exact absurd hin hs
      | id =>
        have hid : Semantics.id = .pr ∨ Semantics.id = .sst ∨ Semantics.id = .id := by simp
        rw [taasSolve_dc_in hin' hid, taasSolve_dc_in hin' hid, hseid]
      | stg => exact absurd rfl hstg
  · have hout : a ∈ aaf.framework.attackedBy aaf.framework.grounded := by
      cases m <;> cases σ <;> simp_all [Settled]
    have hout' := (hg.out_iff a).2 hout
    have hnotin : (computeGrounded aaf).1.labIn.get a = false := by
      rw [Bool.eq_false_iff, Ne, hg.in_iff]
      exact hin
    cases m with
    | dc => rw [taasSolve_dc_out hnotin hout' hgr hstg, taasSolve_dc_out hnotin hout' hgr hstg]
    | ds =>
      cases σ with
      | co => exact absurd rfl (hco rfl)
      | gr => exact absurd rfl hgr
      | pr =>
        have hnot : ¬ aaf.framework.Sceptical a :=
          Mode.not_accepts_of_grounded_attacks (σ := .pr) (m := .ds) hstg hout (by simp)
        exact absurd hnot hs
      | st => exact absurd h hin
      | sst => exact absurd hout hs
      | id =>
        have hid : Semantics.id = .pr ∨ Semantics.id = .sst ∨ Semantics.id = .id := by simp
        rw [taasSolve_ds_out hnotin hout' hid, taasSolve_ds_out hnotin hout' hid, hseid]
      | stg => exact absurd rfl hstg

/-- Apart from DS-PR a query without a search for its witness runs as with total models. -/
theorem taasSolve_query_complete (hs : ¬ WitnessSearched aaf.framework a m σ)
    (hpr : m = .ds → σ = .pr → Settled aaf.framework a m σ) :
    taasSolve aaf ⟨m.track σ, some a⟩ (solveSwitch ω.answer) =
      taasSolve aaf ⟨m.track σ, some a⟩ (solveSwitch ω.complete.answer) := by
  by_cases hgrounded : σ = .gr ∨ (m = .ds ∧ σ = .co)
  · rw [taasSolve_grounded hgrounded, taasSolve_grounded hgrounded]
  obtain ⟨hgr, hco⟩ := not_or.1 hgrounded
  replace hco : m = .ds → σ ≠ .co := fun hm hσ => hco ⟨hm, hσ⟩
  by_cases hsettled : Settled aaf.framework a m σ
  · exact taasSolve_settled_complete ω aaf a hgr hco hs hsettled
  · rw [taasSolve_of_not_settled hsettled, taasSolve_of_not_settled hsettled]
    exact solveSwitch_complete ω aaf a hgr hco fun hm hσ => hsettled (hpr hm hσ)

end Queries

/-- The set printed after the answer `r` agrees with it, and so does the preferred extension that
it defends. -/
structure StandsFor (F : Framework (Fin n)) (σ : Semantics) (a : Fin n) (r : Bool)
    (E : Set (Fin n)) : Prop where
  nearly : σ.Nearly F E
  agrees : r = true ↔ a ∈ E
  defended : σ = .pr → (r = true ↔ a ∈ F.characteristic E)

section Witnesses
variable (ω : SatOracle) (aaf : AAF n) {a : Fin n} {m : Mode} {σ : Semantics}

theorem total_sepr_nearly (arg : Option (Fin n)) (w : World) :
    Prog.Total (solveSwitch ω.answer ⟨Semantics.pr.seTrack, arg⟩ aaf (computeGrounded aaf).1)
      (fun _ w' => ∃ line, GivesWitness aaf (Semantics.pr.Nearly aaf.framework) line ∧
        w'.stdout = w.stdout ++ line) w := by
  rw [solveSwitch_sepr]
  apply (total_solveSepr_open ω (computeGrounded_represents aaf) (by simp) w).mono
  rintro _ w' ⟨line, ⟨E, ⟨hE, -⟩, hline⟩, hw'⟩
  have hnearly : Semantics.pr.Nearly aaf.framework E :=
    ⟨hE.admissible, hE.grounded_subset, fun _ => hE.preferred, nofun⟩
  exact ⟨line, ⟨E, hnearly, hline⟩, hw'⟩

theorem nearly_of_climbEnd {M : PartialModel → Prop} {inVars outVars : Fin n → ℤ} {E : Set (Fin n)}
    (h : ClimbEnd aaf.framework.AdmissibleLabelling Framework.labelled M inVars outVars E) :
    Semantics.sst.Nearly aaf.framework E := by
  rcases h with ⟨rfl, hnone⟩ | ⟨m, -, rfl, hcube⟩
  · have hempty : ∀ S, aaf.framework.Admissible S → aaf.framework.grounded ⊆ S →
        aaf.framework.range S = ∅ := fun S hS hG => hnone _ _ (hS.labelling hG)
    constructor
    · exact Framework.admissible_empty
    · intro a ha
      have hrange := hempty _ Framework.grounded_complete.admissible subset_rfl
      have hmem : a ∈ aaf.framework.range aaf.framework.grounded := Framework.subset_range ha
      rw [hrange] at hmem
      exact hmem.elim
    · exact nofun
    · intro _ S hS hG _
      rw [hempty S hS hG]
      exact Set.empty_subset _
  · constructor
    · exact hcube.lower.admissible
    · exact hcube.lower.grounded_in
    · exact nofun
    · exact fun _ S hS hG hrange => hcube.range_subset hS hG hrange

theorem total_sesst_nearly (arg : Option (Fin n)) (w : World) :
    Prog.Total (solveSwitch ω.answer ⟨Semantics.sst.seTrack, arg⟩ aaf (computeGrounded aaf).1)
      (fun _ w' => ∃ line, GivesWitness aaf (Semantics.sst.Nearly aaf.framework) line ∧
        w'.stdout = w.stdout ++ line) w := by
  have hg := computeGrounded_represents aaf
  rw [solveSwitch_sesst, solveSesst, solveSeRange_eq]
  apply Prog.Total.bind
  apply (total_seRangeShown ω (fun _ _ _ _ => trivial) (dcsst_correct hg) hg w
    (M := fun _ => True)).mono
  rintro s w' ⟨hend, hspelling, hw'⟩
  have hset : Semantics.sst.Nearly aaf.framework s.set := by
    rcases hend with ⟨htotal, hs⟩ | ⟨-, hend⟩
    · have hG := Framework.grounded_complete (F := aaf.framework)
      rw [hs]
      refine ⟨hG.admissible, subset_rfl, nofun, fun _ S _ _ _ a _ => ?_⟩
      exact (htotal a).imp (fun ha => hG.admissible.subset_characteristic ha) id
    · exact nearly_of_climbEnd aaf hend
  apply Prog.total_atomic.2
  exact ⟨_, ⟨s.set, hset, s.witnessLine hspelling aaf⟩, by rw [hw']⟩

theorem total_search_nearly (hσ : σ = .pr ∨ σ = .sst) (arg : Option (Fin n)) (w : World) :
    Prog.Total (solveSwitch ω.answer ⟨σ.seTrack, arg⟩ aaf (computeGrounded aaf).1)
      (fun _ w' => ∃ line, GivesWitness aaf (σ.Nearly aaf.framework) line ∧
        w'.stdout = w.stdout ++ line) w := by
  rcases hσ with rfl | rfl
  · exact total_sepr_nearly ω aaf arg w
  · exact total_sesst_nearly ω aaf arg w

def AnswersOpen (aaf : AAF n) (m : Mode) (σ : Semantics) (a : Fin n) (p : Prog World Unit) : Prop :=
  ∀ w, Prog.Total p (fun _ w' => ∃ r text, (r = true ↔ m.Accepts aaf.framework σ a) ∧
    (Witnessed aaf.framework aaf.ids2arguments m σ a r text ∨
      WitnessSearched aaf.framework a m σ ∧ ∃ E, StandsFor aaf.framework σ a r E ∧
        SpelledBy aaf.ids2arguments E text) ∧
    w'.stdout = w.stdout ++ (answer r ++ text)) w

/-- What the grounded labeling settles holds for the set searched as well. -/
theorem answersOpen_search {r : Bool} (hσ : σ = .pr ∨ σ = .sst)
    (hr : r = true ↔ m.Accepts aaf.framework σ a) (hs : WitnessSearched aaf.framework a m σ)
    (hsettled : if r then a ∈ aaf.framework.grounded
      else a ∈ aaf.framework.attackedBy aaf.framework.grounded) :
    AnswersOpen aaf m σ a (do
      printf (answer r)
      solveSwitch ω.answer ⟨σ.seTrack, some a⟩ aaf (computeGrounded aaf).1) := by
  intro w
  apply Prog.total_atomic_bind.2
  apply (total_search_nearly ω aaf hσ (some a) _).mono
  rintro _ w' ⟨line, ⟨E, hE, hline⟩, hw'⟩
  have hagrees : ∀ T, aaf.framework.ConflictFree T → aaf.framework.grounded ⊆ T →
      (r = true ↔ a ∈ T) := by
    intro T hT hsub
    cases r with
    | true => exact iff_of_true rfl (hsub hsettled)
    | false =>
      apply iff_of_false Bool.false_ne_true
      exact fun ha => hT.notMem_attackedBy ha (Framework.attackedBy_mono hsub hsettled)
  have hdefended : σ = .pr → (r = true ↔ a ∈ aaf.framework.characteristic E) := by
    intro hpr
    exact hagrees _ (hE.preferred hpr).prop.conflictFree (hE.preferred hpr).grounded_subset
  refine ⟨r, line, hr, .inr ⟨hs, E, ⟨hE, ?_, hdefended⟩, hline.spelledBy⟩, ?_⟩
  · exact hagrees E hE.admissible.conflictFree hE.grounded_subset
  · rw [hw', String.append_assoc]

theorem answersOpen_dspr : AnswersOpen aaf .ds .pr a
    (discard (solveDspr ω.answer aaf (computeGrounded aaf).1 a true)) := by
  intro w
  apply Prog.Total.bind
  apply (total_solveDspr_open ω (computeGrounded_represents aaf) w).mono
  rintro r w' ⟨hr, text, htext, hw'⟩
  apply Prog.total_pure.2
  refine ⟨r, text, hr, ?_, hw'⟩
  rw [DsprOpenText] at htext
  cases r with
  | true =>
    obtain rfl : text = "" := htext
    exact .inl (.bare (by simp [WitnessDue]))
  | false =>
    obtain ⟨E, ⟨hE, ha⟩, hline⟩ := htext
    have hsub := hE.admissible.subset_characteristic
    have hpr : Semantics.pr ≠ .sst := by decide
    refine .inr ⟨fun hscep => Bool.false_ne_true (hr.2 hscep), E, ⟨?_, ?_, ?_⟩, hline.spelledBy⟩
    · exact ⟨hE.admissible, hE.grounded_subset, fun _ => hE.preferred, fun h => absurd h hpr⟩
    · exact iff_of_false Bool.false_ne_true fun haE => ha (hsub haE)
    · exact fun _ => iff_of_false Bool.false_ne_true ha

end Witnesses

section All
variable (ω : SatOracle) (aaf : AAF n)

/-- With any solver every query is answered correctly. The witness is as it should be, unless it is
the result of a search for a preferred or semi-stable extension; then it agrees with the answer. -/
theorem answersOpen_taasSolve (m : Mode) (σ : Semantics) (a : Fin n) :
    AnswersOpen aaf m σ a (taasSolve aaf (Problem.query m σ a).task (solveSwitch ω.answer)) := by
  have hg := computeGrounded_represents aaf
  rw [Problem.task]
  by_cases hs : WitnessSearched aaf.framework a m σ ∧ Settled aaf.framework a m σ
  · obtain ⟨hs, hsettled⟩ := hs
    have hσ : σ = .pr ∨ σ = .sst := by
      cases m <;> cases σ <;> simp_all [WitnessSearched]
    have hsearch : σ = .pr ∨ σ = .sst ∨ σ = .id := hσ.imp_right .inl
    have hstg : σ ≠ .stg := by
      rintro rfl
      exact hsettled
    cases m with
    | dc =>
      have hin : a ∈ aaf.framework.grounded := by
        cases σ <;> simp_all [WitnessSearched]
      have hyes : true = true ↔ Mode.dc.Accepts aaf.framework σ a := by
        apply iff_of_true rfl
        apply Mode.accepts_of_grounded hstg hin
        rintro - rfl
        exact hs
      rw [taasSolve_dc_in ((hg.in_iff a).2 hin) hsearch]
      exact answersOpen_search ω aaf hσ hyes hs hin
    | ds =>
      have hout : a ∈ aaf.framework.attackedBy aaf.framework.grounded := by
        rcases hσ with rfl | rfl
        · apply hsettled.resolve_left
          exact fun hin => hs fun P hP => hP.grounded_subset hin
        · exact hs
      have hnotin : (computeGrounded aaf).1.labIn.get a = false := by
        rw [Bool.eq_false_iff, Ne, hg.in_iff]
        exact Semantics.notMem_of_grounded_attacks (σ := .gr) (by simp) hout rfl
      have hno : false = true ↔ Mode.ds.Accepts aaf.framework σ a := by
        apply iff_of_false Bool.false_ne_true
        apply Mode.not_accepts_of_grounded_attacks hstg hout
        rintro - rfl
        exact hs
      rw [taasSolve_ds_out hnotin ((hg.out_iff a).2 hout) hsearch]
      exact answersOpen_search ω aaf hσ hno hs hout
  · by_cases hpr : m = .ds ∧ σ = .pr ∧ ¬ Settled aaf.framework a m σ
    · obtain ⟨rfl, rfl, hsettled⟩ := hpr
      rw [taasSolve_of_not_settled hsettled]
      simpa [solveSwitch, Mode.track, withArg] using answersOpen_dspr ω aaf
    · have hnot : ¬ WitnessSearched aaf.framework a m σ := by
        intro hsearched
        cases m <;> cases σ <;> simp_all [WitnessSearched, Settled]
      rw [taasSolve_query_complete ω aaf a hnot fun hm hσ => by
        by_contra hsettled
        exact hpr ⟨hm, hσ, hsettled⟩]
      intro w
      apply (answersQuery_taasSolve ω.complete aaf a m σ w).mono
      rintro _ w' ⟨r, text, hr, htext, hw'⟩
      exact ⟨r, text, hr, .inl htext, hw'⟩

theorem taasSolve_search_complete {σ : Semantics}
    (h : (Problem.search σ : Problem n).Robust aaf.framework) :
    taasSolve aaf (Problem.search σ).task (solveSwitch ω.answer) =
      taasSolve aaf (Problem.search σ).task (solveSwitch ω.complete.answer) := by
  obtain ⟨hpr, hsst, hstg⟩ := h
  by_cases hgr : σ.seTrack = "SE-GR" ∨ σ.seTrack = "SE-CO"
  · rw [taasSolve_se hgr, taasSolve_se hgr]
  obtain ⟨hgr, hco⟩ := not_or.1 hgr
  have hother : ∀ doSolve, taasSolve aaf (Problem.search σ).task doSolve =
      doSolve ⟨σ.seTrack, none⟩ aaf (computeGrounded aaf).1 := fun _ =>
    taasSolve_other hgr hco fun m τ => σ.seTrack_ne_track τ m
  rw [hother, hother]
  cases σ with
  | co => exact absurd rfl hco
  | gr => exact absurd rfl hgr
  | pr => exact absurd rfl hpr
  | st => rw [solveSwitch_sest, solveSwitch_sest, solveSest_complete]
  | sst => exact absurd rfl hsst
  | id => exact solveSwitch_seid_complete ω aaf none
  | stg => exact absurd rfl hstg

theorem taasSolve_count_complete {κ : CountTrack} (hκ : κ ≠ .pr) :
    taasSolve aaf (Problem.count κ).task (solveSwitch ω.answer) =
      taasSolve aaf (Problem.count κ).task (solveSwitch ω.complete.answer) := by
  rw [taasSolve_count, taasSolve_count]
  cases κ with
  | co => rw [solveSwitch_ceco, solveSwitch_ceco, solveCeco_complete]
  | pr => exact absurd rfl hκ
  | st =>
    rw [solveSwitch_cest, solveSwitch_cest,
      solveCest_complete ω (computeGrounded_represents aaf)]

/-- Whatever a solver leaves open, it solves every other problem. -/
theorem total_robust (p : Problem n) (hp : p.Robust aaf.framework)
    (hcount : ∀ κ, p = .count κ → {E | κ.semantics.Extension aaf.framework E}.ncard ≤ intMax)
    (w : World) :
    Prog.Total (taasSolve aaf p.task (solveSwitch ω.answer)) (fun _ w' => ∃ out,
      p.Solved aaf.framework aaf.ids2arguments out ∧ w'.stdout = w.stdout ++ out) w := by
  cases p with
  | query m σ a =>
    apply (answersOpen_taasSolve ω aaf m σ a w).mono
    rintro _ w' ⟨r, text, hr, htext, hw'⟩
    exact ⟨_, ⟨r, text, hr, htext.resolve_right fun hs => hp hs.1, rfl⟩, hw'⟩
  | search σ =>
    rw [taasSolve_search_complete ω aaf hp]
    exact total_taasSolve ω.complete aaf _ hcount w
  | count κ =>
    rw [taasSolve_count_complete ω aaf hp]
    exact total_taasSolve ω.complete aaf _ hcount w
  | accepted =>
    have hrun : taasSolve aaf Problem.accepted.task (solveSwitch ω.answer) =
        taasSolve aaf Problem.accepted.task
          (solveSwitch (ω.fillBy (extensionQuery n)).answer) := by
      rw [taasSolve_accepted, taasSolve_accepted,
        solveEapr_fillBy ω aaf (computeGrounded_represents aaf)]
    rw [hrun]
    exact total_taasSolve (ω.fillBy (extensionQuery n)) aaf .accepted hcount w

/-- Without total models SE-PR and SE-SST print an admissible set that contains the grounded
extension. What the set of SE-PR defends is a preferred extension; no admissible set with at least
the range of the set of SE-SST leaves what that defends and attacks. -/
theorem taasSolve_search_nearly (w : World) :
    Prog.Total (taasSolve aaf (Problem.search .pr).task (solveSwitch ω.answer)) (fun _ w' =>
      ∃ line, GivesWitness aaf (Semantics.pr.Nearly aaf.framework) line ∧
        w'.stdout = w.stdout ++ line) w ∧
    Prog.Total (taasSolve aaf (Problem.search .sst).task (solveSwitch ω.answer)) (fun _ w' =>
      ∃ line, GivesWitness aaf (Semantics.sst.Nearly aaf.framework) line ∧
        w'.stdout = w.stdout ++ line) w := by
  have hother : ∀ {σ : Semantics}, σ = .pr ∨ σ = .sst →
      taasSolve aaf (Problem.search σ).task (solveSwitch ω.answer) =
        solveSwitch ω.answer ⟨σ.seTrack, none⟩ aaf (computeGrounded aaf).1 := by
    intro σ hσ
    apply taasSolve_other _ _ fun m τ => σ.seTrack_ne_track τ m
    · rcases hσ with rfl | rfl <;> simp [Problem.task, Semantics.seTrack]
    · rcases hσ with rfl | rfl <;> simp [Problem.task, Semantics.seTrack]
  rw [hother (.inl rfl), hother (.inr rfl)]
  exact ⟨total_search_nearly ω aaf (.inl rfl) none w, total_search_nearly ω aaf (.inr rfl) none w⟩

end All

end TaasFudge
