import TaasFudge.Taas.Answers
import TaasFudge.Tasks.RangeSearches
import TaasFudge.Tasks.Searches
import TaasFudge.Tasks.TestSearches

/-! # How many searches a problem takes

Most problems are solved with at most one search for each argument and one more; the counting
tasks need about one for each extension. The queries with a loop around their searches need as
many rounds as there are sets to rule out.
-/

namespace TaasFudge

open Dimacs

variable {n : ℕ}

/-- Searches for some extension, and the queries that are settled by the grounded labeling or
decided by one search or by the ideal extension. -/
def Problem.Linear (F : Framework (Fin n)) : Problem n → Prop
  | query m σ a => Settled F a m σ ∨ σ ≠ .sst ∧ σ ≠ .stg ∧ ¬ (m = .ds ∧ σ = .pr)
  | search _ => True
  | count _ | accepted => False

section Linear
variable (ω : TotalOracle) (aaf : AAF n) {σ : Semantics}

theorem discard_searches {α : Type} {p : Prog World α} {c : ℕ} (h : Prog.Costs World.calls c p) :
    Prog.Costs World.calls c (discard p) := h.bind_free fun _ => Prog.costs_pure _

theorem switch_search_searches (σ : Semantics) (arg : Option (Fin n)) (w : World) :
    Prog.Total (solveSwitch ω.answer ⟨σ.seTrack, arg⟩ aaf (computeGrounded aaf).1)
      (fun _ w' => w'.calls ≤ w.calls + (n + 1)) w := by
  have hg := computeGrounded_represents aaf
  cases σ with
  | co | gr =>
    simp only [solveSwitch, Semantics.seTrack]
    simp
  | pr =>
    rw [solveSwitch_sepr]
    exact solveSepr_searches hg (by simp) w
  | st =>
    rw [solveSwitch_sest]
    apply ((total_solveSest ω hg w).costs costs_solveSest).mono
    rintro _ w' ⟨-, hw'⟩
    omega
  | sst =>
    rw [solveSwitch_sesst]
    exact solveSeRange_searches (dcsst_correct hg) w
  | id =>
    rw [solveSwitch_seid]
    apply Prog.Total.bind
    exact (computeIdeal_searches hg w).mono fun _ _ h => Prog.total_atomic.2 h
  | stg =>
    rw [solveSwitch_sestg]
    exact solveSeRange_searches dcstg_correct w

theorem search_searches (σ : Semantics) (w : World) :
    Prog.Total (taasSolve aaf (Problem.search σ).task (solveSwitch ω.answer))
      (fun _ w' => w'.calls ≤ w.calls + (n + 1)) w := by
  by_cases hgr : σ = .gr ∨ σ = .co
  · rw [taasSolve_se (by rcases hgr with rfl | rfl <;> simp [Problem.task, Semantics.seTrack])]
    exact Prog.total_atomic.2 (Nat.le_add_right _ _)
  · rw [taasSolve_other _ _ fun m τ => σ.seTrack_ne_track τ m]
    · exact switch_search_searches ω aaf σ none w
    · cases σ <;> simp_all [Problem.task, Semantics.seTrack]
    · cases σ <;> simp_all [Problem.task, Semantics.seTrack]

variable {aaf} {m : Mode} {a : Fin n}

theorem exists_shortcut {doSolve : TaskSpecification n → AAF n → Labeling → Prog World Unit}
    (hgr : σ ≠ .gr) (hco : m = .ds → σ ≠ .co) (h : Settled aaf.framework a m σ) :
    ∃ r, Shortcut aaf σ a r (doSolve ⟨σ.seTrack, some a⟩ aaf (computeGrounded aaf).1)
      (taasSolve aaf ⟨m.track σ, some a⟩ doSolve) := by
  have hstg : σ ≠ .stg := by
    rintro rfl
    exact h
  by_cases ha : a ∈ aaf.framework.grounded
  · refine ⟨true, shortcut_of_in hgr hco ?_ hstg ha⟩
    rintro rfl rfl
    exact Semantics.notMem_of_grounded_attacks (σ := .gr) (by simp) h rfl ha
  · refine ⟨false, shortcut_of_out hgr hco ?_ hstg ?_⟩
    · rintro rfl rfl
      exact ha h
    · cases m <;> cases σ <;> simp_all [Settled]

/-- A settled query costs nothing but the search for a witness. -/
theorem Shortcut.searches {r : Bool} {p : Prog World Unit} (h : Shortcut aaf σ a r
      (solveSwitch ω.answer ⟨σ.seTrack, some a⟩ aaf (computeGrounded aaf).1) p) (w : World) :
    Prog.Total p (fun _ w' => w'.calls ≤ w.calls + (n + 1)) w := by
  cases h with
  | bare => exact Prog.total_atomic.2 (Nat.le_add_right _ _)
  | grounded _ => exact Prog.total_atomic_bind.2 (Prog.total_atomic.2 (Nat.le_add_right _ _))
  | redirected _ => exact Prog.total_atomic_bind.2 (switch_search_searches ω aaf σ (some a) _)

theorem switch_query_searches (hgr : σ ≠ .gr) (hco : m = .ds → σ ≠ .co)
    (hsettled : ¬ Settled aaf.framework a m σ)
    (hσ : σ ≠ .sst ∧ σ ≠ .stg ∧ ¬ (m = .ds ∧ σ = .pr)) (w : World) :
    Prog.Total (solveSwitch ω.answer ⟨m.track σ, some a⟩ aaf (computeGrounded aaf).1)
      (fun _ w' => w'.calls ≤ w.calls + (n + 1)) w := by
  have hn : 0 < n := a.pos
  have hanswer := answersQuery_switch ω aaf a hsettled
  obtain ⟨hsst, hstg, hds⟩ := hσ
  by_cases hid : σ = .id
  · subst hid
    rw [solveSwitch_id]
    apply Prog.Total.bind
    apply (computeIdeal_searches (computeGrounded_represents aaf) w).mono
    exact fun _ _ h => Prog.total_atomic_bind.2 (Prog.total_atomic.2 h)
  · suffices hcosts : Prog.Costs World.calls 2
        (solveSwitch ω.answer ⟨m.track σ, some a⟩ aaf (computeGrounded aaf).1) by
      apply ((hanswer w).costs hcosts).mono
      rintro _ w' ⟨-, hw'⟩
      omega
    cases m with
    | dc =>
      by_cases hst : σ = .st
      · subst hst
        rw [solveSwitch_dcst]
        exact (discard_searches costs_solveDcst).mono one_le_two
      · rw [solveSwitch_dcco _ _ _ _ (by cases σ <;> simp_all)]
        exact (discard_searches costs_solveDcco).mono one_le_two
    | ds =>
      obtain rfl : σ = .st := by cases σ <;> simp_all
      rw [solveSwitch_dsst]
      exact discard_searches costs_solveDsst

theorem query_searches (h : (Problem.query m σ a).Linear aaf.framework) (w : World) :
    Prog.Total (taasSolve aaf (Problem.query m σ a).task (solveSwitch ω.answer))
      (fun _ w' => w'.calls ≤ w.calls + (n + 1)) w := by
  by_cases hgr : σ = .gr ∨ (m = .ds ∧ σ = .co)
  · rw [Problem.task, taasSolve_grounded hgr]
    exact Prog.total_atomic_bind.2 (Prog.total_atomic.2 (Nat.le_add_right _ _))
  obtain ⟨hgr, hco⟩ := not_or.1 hgr
  replace hco : m = .ds → σ ≠ .co := fun hm hσ => hco ⟨hm, hσ⟩
  by_cases hsettled : Settled aaf.framework a m σ
  · obtain ⟨r, hshort⟩ := exists_shortcut hgr hco hsettled
    exact hshort.searches ω w
  · rw [Problem.task, taasSolve_of_not_settled hsettled]
    exact switch_query_searches ω hgr hco hsettled (h.resolve_left hsettled) w

/-- These problems are solved with at most one search for each argument and one more. -/
theorem taasSolve_linear (ω : TotalOracle) (aaf : AAF n) (p : Problem n)
    (hp : p.Linear aaf.framework) (w : World) :
    Prog.Total (taasSolve aaf p.task (solveSwitch ω.answer))
      (fun _ w' => w'.calls ≤ w.calls + (n + 1)) w := by
  cases p with
  | query m σ a => exact query_searches ω hp w
  | search σ => exact search_searches ω aaf σ w
  | count _ => exact absurd hp id
  | accepted => exact absurd hp id

theorem taasSolve_linear_oneSided :
    Prog.Total (taasSolve oneSided (Problem.search .pr : Problem 2).task
      (solveSwitch exhaustive.answer)) (fun _ w' => w'.calls ≤ 0 + (2 + 1)) ⟨0, "", true⟩ :=
  taasSolve_linear exhaustive oneSided (.search .pr) trivial ⟨0, "", true⟩

end Linear

section Bounds
variable (ω : TotalOracle) (aaf : AAF n) {m : Mode} {σ : Semantics} {a : Fin n}

def Semantics.Searched (F : Framework (Fin n)) : Semantics → Set (Fin n) → Prop
  | stg => F.ConflictFree
  | _ => F.AdmissibleAbove F.grounded

/-- Those with the argument for DC, and without it for DS. -/
def Mode.Candidate (m : Mode) (F : Framework (Fin n)) (σ : Semantics) (a : Fin n)
    (S : Set (Fin n)) : Prop := σ.Searched F S ∧ (a ∈ S ↔ m = .dc)

theorem candidate_admissible {task : RangeTask n} (hs : task.sought = true ↔ m = .dc) :
    task.Candidate a aaf.framework.AdmissibleLabelling = m.Candidate aaf.framework .sst a := by
  funext S
  rw [RangeTask.Candidate, RangeTask.Meets, hs, Framework.exists_admissibleLabelling]
  exact propext (and_congr_left fun _ => ⟨fun h => ⟨h.1, h.2⟩, fun h => ⟨h.1, h.2⟩⟩)

theorem candidate_conflictFree {task : RangeTask n} (hs : task.sought = true ↔ m = .dc) :
    task.Candidate a aaf.framework.ConflictFreeLabelling = m.Candidate aaf.framework .stg a := by
  funext S
  rw [RangeTask.Candidate, RangeTask.Meets, hs]
  exact propext (and_congr_left fun _ =>
    ⟨fun h => h.elim fun _ h => h.conflictFree, fun h => ⟨_, Framework.ConflictFree.labelling h⟩⟩)

/-- The bound holds for a query if it does when the solver is asked. -/
theorem query_bound {c : ℕ} (hgr : σ ≠ .gr) (hco : m = .ds → σ ≠ .co) (hc : n + 1 ≤ c)
    (hswitch : ∀ w, Prog.Total (solveSwitch ω.answer ⟨m.track σ, some a⟩ aaf
      (computeGrounded aaf).1) (fun _ w' => w'.calls ≤ w.calls + c) w) (w : World) :
    Prog.Total (taasSolve aaf (Problem.query m σ a).task (solveSwitch ω.answer))
      (fun _ w' => w'.calls ≤ w.calls + c) w := by
  by_cases hsettled : Settled aaf.framework a m σ
  · obtain ⟨r, hshort⟩ := exists_shortcut hgr hco hsettled
    exact (hshort.searches ω w).mono fun _ _ h => h.trans (Nat.add_le_add_left hc _)
  · rw [Problem.task, taasSolve_of_not_settled hsettled]
    exact hswitch w

theorem switch_range_searches (hσ : σ = .sst ∨ σ = .stg) (w : World) :
    Prog.Total (solveSwitch ω.answer ⟨m.track σ, some a⟩ aaf (computeGrounded aaf).1)
      (fun _ w' => w'.calls ≤ w.calls + (2 * n + 4) *
        (2 * (aaf.framework.largestRanges (m.Candidate aaf.framework σ a)).ncard + 1)) w := by
  have hg := computeGrounded_represents aaf
  have hrange : ∀ {task : RangeTask n} {L : Set (Fin n) → Set (Fin n) → Prop}
      {Ext : Set (Fin n) → Prop}, task.Correct aaf (computeGrounded aaf).1 L Ext →
      task.Counted aaf L → task.Candidate a L = m.Candidate aaf.framework σ a →
      Prog.Total (discard (rangeQuery ω.answer task aaf (computeGrounded aaf).1 a true))
        (fun _ w' => w'.calls ≤ w.calls + (2 * n + 4) *
          (2 * (aaf.framework.largestRanges (m.Candidate aaf.framework σ a)).ncard + 1)) w := by
    intro task L Ext hc hcount heq
    apply Prog.Total.bind
    apply (rangeQuery_searches ω hc hcount w).mono
    intro _ w' hw'
    rw [heq] at hw'
    exact Prog.total_pure.2 hw'
  cases hσ with
  | inl hσ =>
    subst hσ
    cases m with
    | dc =>
      rw [solveSwitch_dcsst]
      exact hrange (dcsst_correct hg) dcsst_counted (candidate_admissible aaf (by simp [dcsst]))
    | ds =>
      rw [solveSwitch_dssst]
      exact hrange (dssst_correct hg) dssst_counted (candidate_admissible aaf (by simp [dssst]))
  | inr hσ =>
    subst hσ
    cases m with
    | dc =>
      rw [solveSwitch_dcstg]
      exact hrange dcstg_correct dcstg_counted (candidate_conflictFree aaf (by simp [dcstg]))
    | ds =>
      rw [solveSwitch_dsstg]
      exact hrange dsstg_correct dsstg_counted (candidate_conflictFree aaf (by simp [dsstg]))

/-- Queries about extensions of maximal range take two rounds for each largest range and one more,
each with about two searches for each argument; for those about stage semantics the values that are
read outside the state SAT are taken to stay those of the last model. DS-PR takes two searches for
each admissible set above the grounded extension, and EA-PR as many for each argument. -/
theorem taasSolve_ruled_out (ω : TotalOracle) (aaf : AAF n) (a : Fin n) (w : World) :
    (∀ m σ, σ = .sst ∨ σ = .stg →
      Prog.Total (taasSolve aaf (Problem.query m σ a).task (solveSwitch ω.answer)) (fun _ w' =>
        w'.calls ≤ w.calls + (2 * n + 4) *
          (2 * (aaf.framework.largestRanges (m.Candidate aaf.framework σ a)).ncard + 1)) w) ∧
    Prog.Total (taasSolve aaf (Problem.query .ds .pr a).task (solveSwitch ω.answer)) (fun _ w' =>
      w'.calls ≤ w.calls +
        (2 * {S | aaf.framework.AdmissibleAbove aaf.framework.grounded S}.ncard + (n + 5))) w ∧
    Prog.Total (taasSolve aaf Problem.accepted.task (solveSwitch ω.answer)) (fun _ w' =>
      w'.calls ≤ w.calls + (2 * (n + 1) +
        n * (2 * {S | aaf.framework.AdmissibleAbove aaf.framework.grounded S}.ncard + 2))) w := by
  have hg := computeGrounded_represents aaf
  refine ⟨fun m σ hσ => ?_, ?_, ?_⟩
  · have hbound : n + 1 ≤ (2 * n + 4) *
        (2 * (aaf.framework.largestRanges (m.Candidate aaf.framework σ a)).ncard + 1) :=
      calc n + 1 ≤ 2 * n + 4 := by omega
        _ ≤ _ := Nat.le_mul_of_pos_right _ (Nat.succ_pos _)
    apply query_bound ω aaf _ _ hbound (switch_range_searches ω aaf hσ)
    · rintro rfl
      simp at hσ
    · rintro - rfl
      simp at hσ
  · apply query_bound ω aaf (by simp) (by simp) (by omega)
    intro w
    rw [solveSwitch_dspr]
    apply Prog.Total.bind
    exact (solveDspr_searches hg w).mono fun _ _ h => Prog.total_pure.2 h
  · rw [taasSolve_accepted]
    exact solveEapr_searches hg w

end Bounds

/-- Counting takes one search for each complete or stable extension, and one more unless the last
model found shows that there is no other. Preferred extensions take more, but each at most one
search for each argument and one more. -/
theorem taasSolve_count_searches (ω : TotalOracle) (aaf : AAF n) (w : World) :
    Prog.Total (taasSolve aaf (Problem.count .co).task (solveSwitch ω.answer)) (fun _ w' =>
      w'.calls = w.calls + ({E | aaf.framework.Complete E}.ncard + if n = 0 then 0 else 1)) w ∧
    Prog.Total (taasSolve aaf (Problem.count .st).task (solveSwitch ω.answer)) (fun _ w' =>
      w'.calls = w.calls + ({E | aaf.framework.Stable E}.ncard +
        if ∀ i, aaf.parents i = [] then 0 else 1)) w ∧
    Prog.Total (taasSolve aaf (Problem.count .pr).task (solveSwitch ω.answer)) (fun _ w' =>
      w'.calls ≤ w.calls + (n + 1) * ({E | aaf.framework.Preferred E}.ncard + 1)) w := by
  simp only [taasSolve_count, solveSwitch_ceco, solveSwitch_cest, solveSwitch_cepr]
  refine ⟨?_, ?_, solveCepr_searches (computeGrounded_represents aaf) w⟩
  · exact (total_solveCeco ω aaf w).mono fun _ _ h => h.2
  · exact (total_solveCest ω aaf w).mono fun _ _ h => h.2

end TaasFudge
