import TaasFudge.Taas.Answers
import TaasFudge.Taas.Held

/-! # The extensions that a track can hold

Which sets a witness line can be for is a matter of the framework alone: each of them is
held with some right solver, and no other with any.
-/

namespace TaasFudge

open Dimacs Framework

variable {n : ℕ}

section Dispatch
variable {ω : Oracle} {aaf : AAF n} {arg : Option (Fin n)} {a : Fin n} {m : Mode} {σ : Semantics}

theorem taasShown_grounded (hσ : σ = .gr ∨ (m = .ds ∧ σ = .co)) :
    taasShown ω aaf ⟨m.track σ, some a⟩ = (do
      printf (answer ((computeGrounded aaf).1.labIn.get a))
      pure (some ((computeGrounded aaf).1.shown n))) := by
  rcases hσ with rfl | ⟨rfl, rfl⟩
  · cases m <;> simp [taasShown, Mode.track, withArg]
  · simp [taasShown, Mode.track, withArg]

theorem taasShown_dcco_in (hin : (computeGrounded aaf).1.labIn.get a = true) :
    taasShown ω aaf ⟨Mode.dc.track .co, some a⟩ = (do
      printf (answer true)
      pure (some ((computeGrounded aaf).1.shown n))) := by
  simp [taasShown, argIs_some, Mode.track, hin]

theorem taasShown_dc_in (hin : (computeGrounded aaf).1.labIn.get a = true)
    (hσ : σ = .pr ∨ σ = .sst ∨ σ = .id) :
    taasShown ω aaf ⟨Mode.dc.track σ, some a⟩ = (do
      printf (answer true)
      switchShown ω ⟨σ.seTrack, some a⟩ aaf (computeGrounded aaf).1) := by
  rcases hσ with rfl | rfl | rfl <;>
    simp [taasShown, argIs_some, Mode.track, Semantics.seTrack, hin]

theorem taasShown_dc_out (hin : (computeGrounded aaf).1.labIn.get a = false)
    (hout : (computeGrounded aaf).1.labOut.get a = true) (hgr : σ ≠ .gr) (hstg : σ ≠ .stg) :
    taasShown ω aaf ⟨Mode.dc.track σ, some a⟩ = (do
      printf (answer false)
      pure none) := by
  cases σ <;> simp_all [taasShown, argIs_some, Mode.track]

theorem taasShown_ds_in (hin : (computeGrounded aaf).1.labIn.get a = true) (hgr : σ ≠ .gr)
    (hco : σ ≠ .co) (hstg : σ ≠ .stg) :
    taasShown ω aaf ⟨Mode.ds.track σ, some a⟩ = (do
      printf (answer true)
      pure none) := by
  cases σ <;> simp_all [taasShown, argIs_some, Mode.track]

theorem taasShown_ds_out (hin : (computeGrounded aaf).1.labIn.get a = false)
    (hout : (computeGrounded aaf).1.labOut.get a = true) (hσ : σ = .pr ∨ σ = .sst ∨ σ = .id) :
    taasShown ω aaf ⟨Mode.ds.track σ, some a⟩ = (do
      printf (answer false)
      switchShown ω ⟨σ.seTrack, some a⟩ aaf (computeGrounded aaf).1) := by
  rcases hσ with rfl | rfl | rfl <;>
    simp [taasShown, argIs_some, Mode.track, Semantics.seTrack, hin, hout]

theorem taasShown_of_not_settled (h : ¬ Settled aaf.framework a m σ) :
    taasShown ω aaf ⟨m.track σ, some a⟩ =
      switchShown ω ⟨m.track σ, some a⟩ aaf (computeGrounded aaf).1 := by
  have hrep := computeGrounded_represents aaf
  have hin := hrep.in_iff a
  have hout := hrep.out_iff a
  cases m <;> cases σ <;>
    simp_all [taasShown, argIs_some, Mode.track, Settled]

end Dispatch

/-- The sets that the witness line of a problem can be for. -/
def Problem.MayHold (F : Framework (Fin n)) : Problem n → Set (Fin n) → Prop
  | query _ .gr _, E => E = F.grounded
  | query .dc .co a, E => a ∈ F.grounded ∧ E = F.grounded ∨
      a ∉ F.grounded ∧ F.Complete E ∧ a ∈ E
  | query .ds .co _, E => E = F.grounded
  | query .dc .pr a, E => a ∈ F.grounded ∧ F.Preferred E ∨
      a ∉ F.grounded ∧ F.Complete E ∧ a ∈ E
  | query .ds .pr a, E => F.Dissents a E
  | query m .st a, E => F.Stable E ∧ (a ∈ E ↔ m = .dc)
  | query m .sst a, E => F.SemiStable E ∧ (a ∈ E ↔ m = .dc)
  | query m .stg a, E => F.Stage E ∧ ((a ∈ E ↔ m = .dc) ∨ F.GroundedTotal)
  | query .dc .id a, E => F.Ideal E ∧ a ∉ F.attackedBy F.grounded
  | query .ds .id a, E => F.Ideal E ∧ a ∉ F.grounded
  | search .gr, E => E = F.grounded
  | search .co, E => E = F.grounded
  | search .pr, E => F.Preferred E
  | search .st, E => F.Stable E
  | search .sst, E => F.SemiStable E
  | search .stg, E => F.Stage E
  | search .id, E => F.Ideal E
  | count _, _ => False
  | accepted, _ => False

def Problem.preference (F : Framework (Fin n)) : Problem n → Set (Fin n) → Assignment → Prop
  | query _ .st _ => SelectsAs
  | search .st => SelectsAs
  | _ => LabelsAs F

section Searches
variable (ω : TotalOracle) (aaf : AAF n)

theorem held_ideal {ideal : RaSet n} (h : aaf.framework.Ideal ideal.toSet) :
    Held ω (LabelsAs aaf.framework) aaf.framework.Ideal (some ideal.shown) :=
  held_some h fun _ hE _ => h.unique hE

theorem total_idealShown (w : World) :
    Prog.Total (do
      let ideal ← computeIdeal ω.answer aaf (computeGrounded aaf).1
      pure (some ideal.shown)) (fun o _ =>
        Held ω (LabelsAs aaf.framework) aaf.framework.Ideal o) w := by
  apply Prog.Total.bind
  apply (total_computeIdeal ω (computeGrounded_represents aaf) w).mono
  rintro ideal _ ⟨hideal, -⟩
  exact Prog.total_pure.2 (held_ideal ω aaf hideal)

/-- The searches that do not end in the grounded extension. -/
theorem total_switchShown_search (σ : Semantics) (hσ : σ ≠ .gr ∧ σ ≠ .co) (arg : Option (Fin n))
    (w : World) :
    Prog.Total (switchShown ω.answer ⟨σ.seTrack, arg⟩ aaf (computeGrounded aaf).1) (fun o _ =>
      Held ω ((Problem.search σ).preference aaf.framework)
        ((Problem.search σ).MayHold aaf.framework) o) w := by
  have hg := computeGrounded_represents aaf
  cases σ with
  | gr => exact absurd rfl hσ.1
  | co => exact absurd rfl hσ.2
  | pr =>
    simp only [switchShown, Semantics.seTrack, map_eq_pure_bind]
    apply Prog.Total.bind
    exact (total_seprShown_held ω hg w).mono fun s _ hs => Prog.total_pure.2 hs
  | st => exact total_sestShown ω hg w
  | sst =>
    simp only [switchShown, Semantics.seTrack, map_eq_pure_bind]
    apply Prog.Total.bind
    exact (total_seRangeShown_held ω (dcsst_correct hg) hg SemiStable.exists w).mono
      fun s _ hs => Prog.total_pure.2 hs
  | stg =>
    simp only [switchShown, Semantics.seTrack, map_eq_pure_bind]
    apply Prog.Total.bind
    exact (total_seRangeShown_held ω dcstg_correct hg Stage.exists w).mono
      fun s _ hs => Prog.total_pure.2 hs
  | id => exact total_idealShown ω aaf w

end Searches

section Queries
variable (ω : TotalOracle) (aaf : AAF n) (a : Fin n) {m : Mode} {σ : Semantics}

/-- The query is answered by a run that can show what it may hold. -/
def ShowsHeld (m : Mode) (σ : Semantics) (p : Prog World (Option (Shown n))) : Prop :=
  ∀ w, Prog.Total p (fun o _ => Held ω ((Problem.query m σ a).preference aaf.framework)
    ((Problem.query m σ a).MayHold aaf.framework) o) w

theorem mayHold_stg : (Problem.query m .stg a).MayHold aaf.framework =
    (if m = .dc then dcstg n else dsstg n).MayShow aaf.framework a aaf.framework.Stage := by
  ext E
  cases m <;> simp [Problem.MayHold, RangeTask.MayShow, RangeTask.Meets, dcstg, dsstg]

theorem total_stgShown (m : Mode) (w : World) :
    Prog.Total (taasShown ω.answer aaf ⟨m.track .stg, some a⟩) (fun o w' =>
      Held ω ((Problem.query m .stg a).preference aaf.framework)
        ((Problem.query m .stg a).MayHold aaf.framework) o ∧
      ∀ E, (Problem.query m .stg a).MayHold aaf.framework E ∧
        ω.Prefers ((Problem.query m .stg a).preference aaf.framework E) →
          w'.protocolOk = w.protocolOk) w := by
  have hg := computeGrounded_represents aaf
  have hsettled : ¬ Settled aaf.framework a m .stg := by cases m <;> exact id
  rw [taasShown_of_not_settled hsettled, mayHold_stg]
  cases m with
  | dc =>
    simp only [switchShown, Mode.track, withArg]
    exact total_rangeShown ω dcstg_correct hg w
  | ds =>
    simp only [switchShown, Mode.track, withArg]
    exact total_rangeShown ω dsstg_correct hg w

theorem showsHeld_switch (h : ¬ Settled aaf.framework a m σ) (hstg : σ ≠ .stg) :
    ShowsHeld ω aaf a m σ
      (switchShown ω.answer ⟨m.track σ, some a⟩ aaf (computeGrounded aaf).1) := by
  have hg := computeGrounded_represents aaf
  intro w
  cases σ with
  | gr => exact absurd trivial h
  | stg => exact absurd rfl hstg
  | co =>
    cases m with
    | dc =>
      have ha : a ∉ aaf.framework.grounded := (not_or.1 h).1
      apply (total_dccoShown ω hg w).mono
      exact fun o _ ho => ho.congr fun E => by simp [Problem.MayHold, ha]
    | ds => exact absurd trivial h
  | pr =>
    cases m with
    | dc =>
      have ha : a ∉ aaf.framework.grounded := (not_or.1 h).1
      apply (total_dccoShown ω hg w).mono
      exact fun o _ ho => ho.congr fun E => by simp [Problem.MayHold, ha]
    | ds => exact total_dsprShown ω hg w
  | st =>
    cases m with
    | dc =>
      apply (total_dcstShown ω hg w).mono
      exact fun o _ ho => ho.congr fun E => by simp [Problem.MayHold]
    | ds =>
      apply (total_dsstShown ω hg w).mono
      exact fun o _ ho => ho.congr fun E => by simp [Problem.MayHold]
  | sst =>
    obtain ⟨hin, hout⟩ := not_or.1 h
    have hpartial := not_groundedTotal aaf a hin hout
    cases m with
    | dc =>
      apply (total_rangeShown ω (dcsst_correct hg) hg w).mono
      exact fun o _ ho => ho.1.congr fun E => by
        simp [Problem.MayHold, RangeTask.MayShow, RangeTask.Meets, dcsst, hpartial]
    | ds =>
      apply (total_rangeShown ω (dssst_correct hg) hg w).mono
      exact fun o _ ho => ho.1.congr fun E => by
        simp [Problem.MayHold, RangeTask.MayShow, RangeTask.Meets, dssst, hpartial]
  | id =>
    obtain ⟨hin, hout⟩ := not_or.1 h
    have hideal : switchShown ω.answer ⟨m.track .id, some a⟩ aaf (computeGrounded aaf).1 = (do
        let ideal ← computeIdeal ω.answer aaf (computeGrounded aaf).1
        printf (answer (ideal.contains a))
        pure (some ideal.shown)) := by
      cases m <;> simp [switchShown, Mode.track, withArg]
    rw [hideal]
    apply Prog.Total.bind
    apply (total_computeIdeal ω hg w).mono
    rintro ideal _ ⟨hideal, -⟩
    apply Prog.total_atomic_bind.2
    apply Prog.total_pure.2
    apply (held_ideal ω aaf hideal).congr
    cases m <;> simp [Problem.MayHold, hin, hout]

theorem showsHeld_grounded {r : Bool} (h : ∀ E, (Problem.query m σ a).MayHold aaf.framework E ↔
      E = aaf.framework.grounded) :
    ShowsHeld ω aaf a m σ (do
      printf (answer r)
      pure (some ((computeGrounded aaf).1.shown n))) := by
  have hg : Grounds aaf (computeGrounded aaf).1 := computeGrounded_represents aaf
  intro w
  apply Prog.total_atomic_bind.2
  apply Prog.total_pure.2
  apply held_unique
  rwa [hg.shown_set]

theorem showsHeld_bare {r : Bool} (h : ∀ E, ¬ (Problem.query m σ a).MayHold aaf.framework E) :
    ShowsHeld ω aaf a m σ (do
      printf (answer r)
      pure none) := by
  intro w
  apply Prog.total_atomic_bind.2
  exact Prog.total_pure.2 (held_none h)

theorem showsHeld_search {r : Bool} (hσ : σ = .pr ∨ σ = .sst ∨ σ = .id)
    (h : ∀ E, σ.Extension aaf.framework E ↔ (Problem.query m σ a).MayHold aaf.framework E) :
    ShowsHeld ω aaf a m σ (do
      printf (answer r)
      switchShown ω.answer ⟨σ.seTrack, some a⟩ aaf (computeGrounded aaf).1) := by
  intro w
  apply Prog.total_atomic_bind.2
  apply (total_switchShown_search ω aaf σ _ (some a) _).mono
  · rcases hσ with rfl | rfl | rfl
    · exact fun o _ ho => ho.congr h
    · exact fun o _ ho => ho.congr h
    · exact fun o _ ho => ho.congr h
  · rcases hσ with rfl | rfl | rfl <;> simp

theorem showsHeld_in (ha : a ∈ aaf.framework.grounded) (hgr : σ ≠ .gr) (hco : m = .ds → σ ≠ .co)
    (hst : m = .dc → σ ≠ .st) (hstg : σ ≠ .stg) :
    ShowsHeld ω aaf a m σ (taasShown ω.answer aaf ⟨m.track σ, some a⟩) := by
  have hin := ((computeGrounded_represents aaf).in_iff a).2 ha
  have hmem : ∀ E, σ.Extension aaf.framework E → a ∈ E :=
    fun E hE => Semantics.mem_of_grounded hstg ha hE
  have hout : a ∉ aaf.framework.attackedBy aaf.framework.grounded :=
    fun hout => grounded_complete.notMem_of_grounded_attacks hout ha
  cases m with
  | ds =>
    rw [taasShown_ds_in hin hgr (hco rfl) hstg]
    apply showsHeld_bare
    intro E hE
    cases σ with
    | gr => exact hgr rfl
    | stg => exact hstg rfl
    | co => exact hco rfl rfl
    | pr => exact hE.notMem (hmem E hE.preferred)
    | st => exact absurd (hE.2.1 (hmem E hE.1)) (by simp)
    | sst => exact absurd (hE.2.1 (hmem E hE.1)) (by simp)
    | id => exact hE.2 ha
  | dc =>
    by_cases hσ : σ = .co
    · subst hσ
      rw [taasShown_dcco_in hin]
      exact showsHeld_grounded ω aaf a fun E => by simp [Problem.MayHold, ha]
    · have hsearch : σ = .pr ∨ σ = .sst ∨ σ = .id := by
        have := hst rfl
        cases σ <;> simp_all
      rw [taasShown_dc_in hin hsearch]
      apply showsHeld_search ω aaf a hsearch
      intro E
      rcases hsearch with rfl | rfl | rfl
      · simp [Problem.MayHold, Semantics.Extension, ha]
      · simpa [Problem.MayHold, Semantics.Extension] using hmem E
      · simp [Problem.MayHold, Semantics.Extension, hout]

/-- A query about an argument that the grounded extension attacks. -/
theorem showsHeld_out (ha : a ∈ aaf.framework.attackedBy aaf.framework.grounded) (hgr : σ ≠ .gr)
    (hco : m = .ds → σ ≠ .co) (hst : m = .ds → σ ≠ .st) (hstg : σ ≠ .stg) :
    ShowsHeld ω aaf a m σ (taasShown ω.answer aaf ⟨m.track σ, some a⟩) := by
  have hg := computeGrounded_represents aaf
  have hnot : ∀ E, σ.Extension aaf.framework E → a ∉ E :=
    fun E hE => Semantics.notMem_of_grounded_attacks hstg ha hE
  have hnotG : a ∉ aaf.framework.grounded := grounded_complete.notMem_of_grounded_attacks ha
  have hin : (computeGrounded aaf).1.labIn.get a = false := by
    rwa [Bool.eq_false_iff, Ne, hg.in_iff]
  have hout := (hg.out_iff a).2 ha
  cases m with
  | dc =>
    rw [taasShown_dc_out hin hout hgr hstg]
    apply showsHeld_bare
    intro E hE
    cases σ with
    | gr => exact hgr rfl
    | stg => exact hstg rfl
    | co =>
      obtain ⟨-, hE, harg⟩ := hE.resolve_left fun h => hnotG h.1
      exact hE.notMem_of_grounded_attacks ha harg
    | pr =>
      obtain ⟨-, hE, harg⟩ := hE.resolve_left fun h => hnotG h.1
      exact hE.notMem_of_grounded_attacks ha harg
    | st => exact hnot E hE.1 (hE.2.2 rfl)
    | sst => exact hnot E hE.1 (hE.2.2 rfl)
    | id => exact hE.2 ha
  | ds =>
    have hsearch : σ = .pr ∨ σ = .sst ∨ σ = .id := by
      have := hco rfl
      have := hst rfl
      cases σ <;> simp_all
    rw [taasShown_ds_out hin hout hsearch]
    apply showsHeld_search ω aaf a hsearch
    intro E
    rcases hsearch with rfl | rfl | rfl
    · refine ⟨fun hE => ⟨hE, hnot E hE, ?_⟩, fun hE => hE.preferred⟩
      -- the grounded extension attacks the argument
      exact fun _ _ => attackedBy_mono (Preferred.grounded_subset hE) ha
    · simpa [Problem.MayHold, Semantics.Extension] using hnot E
    · simp [Problem.MayHold, Semantics.Extension, hnotG]

theorem showsHeld_taasShown (m : Mode) (σ : Semantics) :
    ShowsHeld ω aaf a m σ (taasShown ω.answer aaf ⟨m.track σ, some a⟩) := by
  by_cases hstg : σ = .stg
  · subst hstg
    exact fun w => (total_stgShown ω aaf a m w).mono fun _ _ h => h.1
  by_cases hgr : σ = .gr ∨ (m = .ds ∧ σ = .co)
  · rw [taasShown_grounded hgr]
    apply showsHeld_grounded
    rcases hgr with rfl | ⟨rfl, rfl⟩
    · cases m <;> simp [Problem.MayHold]
    · simp [Problem.MayHold]
  obtain ⟨hgr, hco⟩ := not_or.1 hgr
  replace hco : m = .ds → σ ≠ .co := fun hm hσ => hco ⟨hm, hσ⟩
  by_cases hsettled : Settled aaf.framework a m σ
  · by_cases ha : a ∈ aaf.framework.grounded
    · apply showsHeld_in ω aaf a ha hgr hco _ hstg
      rintro rfl rfl
      exact Semantics.notMem_of_grounded_attacks (σ := .gr) (by simp) hsettled rfl ha
    · have hout : a ∈ aaf.framework.attackedBy aaf.framework.grounded := by
        cases m <;> cases σ <;> simp_all [Settled]
      apply showsHeld_out ω aaf a hout hgr hco _ hstg
      rintro rfl rfl
      exact ha hsettled
  · rw [taasShown_of_not_settled hsettled]
    exact showsHeld_switch ω aaf a hsettled hstg

end Queries

section All
variable (ω : TotalOracle) (aaf : AAF n)

theorem taasShown_other {task : TaskSpecification n} (hgr : task.track ≠ "SE-GR")
    (hco : task.track ≠ "SE-CO") (hquery : ∀ m σ, task.track ≠ Mode.track m σ) (ω : Oracle) :
    taasShown ω aaf task = switchShown ω task aaf (computeGrounded aaf).1 := by
  have hdc := fun σ => hquery .dc σ
  have hds := fun σ => hquery .ds σ
  simp only [Mode.track] at hdc hds
  have hno : ∀ tracks bits, task.track ∉ tracks → argIs task tracks bits = pure false :=
    fun tracks bits h => if_neg h
  have := hdc .co; have := hdc .gr; have := hdc .pr; have := hdc .st
  have := hdc .sst; have := hdc .id
  have := hds .co; have := hds .gr; have := hds .pr; have := hds .st
  have := hds .sst; have := hds .id
  simp_all [taasShown]

theorem held_of_silent {P : Set (Fin n) → Prop} {preference : Set (Fin n) → Assignment → Prop}
    {p : Prog World Unit} {Q : Unit → World → Prop} {w : World} (hp : Prog.Total p Q w)
    (h : ∀ E, ¬ P E) : Prog.Total (do
      p
      pure (none : Option (Shown n))) (fun o _ => Held ω preference P o) w := by
  apply Prog.Total.bind
  exact hp.mono fun _ _ _ => Prog.total_pure.2 (held_none h)

theorem total_taasShown (p : Problem n) (w : World) :
    Prog.Total (taasShown ω.answer aaf p.task) (fun o _ =>
      Held ω (p.preference aaf.framework) (p.MayHold aaf.framework) o) w := by
  have hg : Grounds aaf (computeGrounded aaf).1 := computeGrounded_represents aaf
  cases p with
  | query m σ a => exact showsHeld_taasShown ω aaf a m σ w
  | search σ =>
    by_cases hσ : σ = .gr ∨ σ = .co
    · have htask : taasShown ω.answer aaf (Problem.search σ).task =
          pure (some ((computeGrounded aaf).1.shown n)) := by
        rcases hσ with rfl | rfl <;> simp [taasShown, Problem.task, Semantics.seTrack]
      rw [htask]
      apply Prog.total_pure.2
      apply held_unique
      rw [hg.shown_set]
      rcases hσ with rfl | rfl
      · exact fun E => Iff.rfl
      · exact fun E => Iff.rfl
    · rw [not_or] at hσ
      rw [Problem.task, taasShown_other]
      · exact total_switchShown_search ω aaf σ hσ none w
      · cases σ <;> simp_all [Semantics.seTrack]
      · cases σ <;> simp_all [Semantics.seTrack]
      · exact fun m τ => σ.seTrack_ne_track τ m
  | count κ =>
    rw [Problem.task, taasShown_other aaf κ.track_ne.1 κ.track_ne.2.1 κ.track_ne.2.2]
    cases κ with
    | co => exact held_of_silent ω (total_solveCeco ω aaf w) fun _ => id
    | pr => exact held_of_silent ω (total_solveCepr ω hg w) fun _ => id
    | st => exact held_of_silent ω (total_solveCest ω aaf w) fun _ => id
  | accepted =>
    rw [Problem.task, taasShown_other aaf (by simp) (by simp) eaPr_ne_track]
    exact held_of_silent ω (total_solveEapr ω hg w) fun _ => id

/-- The part of a run before the witness line keeps the protocol if the whole run does. -/
theorem respects_taasShown (ω : SatOracle) {task : TaskSpecification n} (h : task.Allowed aaf) :
    Respects (taasShown ω.answer aaf task) fun _ => True := by
  intro k w hw
  have hsolve := respects_taasSolve ω h k w hw
  rw [taasSolve_eq, Prog.within_bind] at hsolve
  apply hsolve.mono
  intro o w' hprinted
  cases o with
  | none => exact ⟨hprinted.1, trivial⟩
  | some s => exact ⟨hprinted.1, trivial⟩

/-- Every set that a problem may hold is held with some right solver, in runs that keep the
protocol. -/
theorem exists_held (p : Problem n) {E : Set (Fin n)} (hE : p.MayHold aaf.framework E) :
    ∃ ω : TotalOracle, ∀ w, w.protocolOk = true → Prog.Total (taasShown ω.answer aaf p.task)
      (fun o w' => w'.protocolOk = true ∧ ∃ s, o = some s ∧ s.set = E) w := by
  obtain ⟨ω, hω⟩ := TotalOracle.exists_prefers (p.preference aaf.framework E)
  refine ⟨ω, fun w hw => ?_⟩
  by_cases hstg : ∃ m a, p = .query m .stg a
  · obtain ⟨m, a, rfl⟩ := hstg
    apply (total_stgShown ω aaf a m w).mono
    rintro o w' ⟨hheld, hprotocol⟩
    exact ⟨(hprotocol E ⟨hE, hω⟩).trans hw, hheld.complete E hE hω⟩
  · have hallowed : p.task.Allowed aaf := by
      apply TaskSpecification.Allowed.of_ne
      all_goals
        cases p with
        | query m σ a => cases m <;> cases σ <;> simp_all [Problem.task, Mode.track]
        | search σ => cases σ <;> simp [Problem.task, Semantics.seTrack]
        | count κ => cases κ <;> simp [Problem.task, CountTrack.track]
        | accepted => simp [Problem.task]
    apply ((respects_taasShown aaf ω.toSatOracle hallowed).total (total_taasShown ω aaf p w)).mono
    rintro o w' ⟨hheld, hprotocol⟩
    exact ⟨hprotocol hw, hheld.complete E hE hω⟩

end All

end TaasFudge
