import TaasFudge.Taas.SolveProtocol
import TaasFudge.Tasks.Counting
import TaasFudge.Tasks.SeRangeCorrectness
import TaasFudge.Tasks.Stable

/-! # The problems and their solutions

What the program has to print for each of its problems is a matter of the framework and
of the names of its arguments alone. `taas__solve` prints it, whether the grounded
labeling decides, the query is turned into a search, or a task function runs.
-/

namespace TaasFudge

open Dimacs

variable {n : ℕ}

inductive CountTrack where
  | co | pr | st
  deriving DecidableEq

def CountTrack.semantics : CountTrack → Semantics
  | .co => .co
  | .pr => .pr
  | .st => .st

def CountTrack.track : CountTrack → String
  | .co => "CE-CO"
  | .pr => "CE-PR"
  | .st => "CE-ST"

/-- A query about an argument, the search for some extension, the number of extensions, or all
arguments that are sceptically accepted under preferred semantics. -/
inductive Problem (n : ℕ) where
  | query (m : Mode) (σ : Semantics) (a : Fin n)
  | search (σ : Semantics)
  | count (κ : CountTrack)
  | accepted

def Problem.task : Problem n → TaskSpecification n
  | query m σ a => ⟨m.track σ, some a⟩
  | search σ => ⟨σ.seTrack, none⟩
  | count κ => ⟨κ.track, none⟩
  | accepted => ⟨"EA-PR", none⟩

/-- A witness line that spells the members of `E` by `name`. -/
def SpelledBy (name : Fin n → String) (E : Set (Fin n)) (line : String) : Prop :=
  ∃ l, Lists l E ∧
    (line = "w " ++ joinNames " " (l.map name) ++ "\n" ∨ line = terminatedLine name l)

/-- The semantics of the witnesses: an argument of a complete extension is in a preferred one. -/
def Mode.witness : Mode → Semantics → Semantics
  | .dc, .pr => .co
  | _, σ => σ

/-- Whether a witness follows the answer `r`. For the ideal extension one does unless the grounded
labelling gives the answer that needs none. -/
def WitnessDue (F : Framework (Fin n)) (a : Fin n) (r : Bool) : Mode → Semantics → Prop
  | _, .gr | .ds, .co => True
  | .dc, .id => a ∉ F.attackedBy F.grounded
  | .ds, .id => a ∉ F.grounded
  | m, .stg => (r = true ↔ m = .dc) ∨ F.GroundedTotal
  | m, _ => r = true ↔ m = .dc

/-- The witness gives numbers in place of names. -/
def WitnessByNumber (F : Framework (Fin n)) (a : Fin n) : Mode → Semantics → Prop
  | _, .st => True
  | .dc, .co | .dc, .pr => a ∉ F.grounded
  | _, _ => False

/-- The text after the answer `r`: if a witness is due, an extension that agrees with the answer. -/
inductive Witnessed (F : Framework (Fin n)) (name : Fin n → String) (m : Mode) (σ : Semantics)
    (a : Fin n) (r : Bool) : String → Prop
  | bare (h : ¬ WitnessDue F a r m σ) : Witnessed F name m σ a r ""
  | named {E : Set (Fin n)} {text : String} (due : WitnessDue F a r m σ)
      (byName : ¬ WitnessByNumber F a m σ) (ext : (m.witness σ).Extension F E)
      (agrees : r = true ↔ a ∈ E) (h : SpelledBy name E text) : Witnessed F name m σ a r text
  | numbered {E : Set (Fin n)} {text : String} (due : WitnessDue F a r m σ)
      (byNumber : WitnessByNumber F a m σ) (ext : (m.witness σ).Extension F E)
      (agrees : r = true ↔ a ∈ E) (h : SpelledBy argNumber E text) : Witnessed F name m σ a r text

/-- What is to be printed for a problem. -/
def Problem.Solved (F : Framework (Fin n)) (name : Fin n → String) : Problem n → String → Prop
  | query m σ a, out => ∃ r text, (r = true ↔ m.Accepts F σ a) ∧ Witnessed F name m σ a r text ∧
      out = answer r ++ text
  | search σ, out => (∃ E, σ.Extension F E ∧ SpelledBy name E out) ∨
      σ = .st ∧ (∀ E, ¬ F.Stable E) ∧ out = "NO\n"
  | count κ, out => out = toString {E | κ.semantics.Extension F E}.ncard ++ "\n"
  | accepted, out => ∃ l, Lists l {i | Mode.ds.Accepts F .pr i} ∧
      out = "[" ++ joinNames "," (l.map name) ++ "]\n"

section Lines
variable {aaf : AAF n} {E : Set (Fin n)} {line : String}

theorem WitnessLine.spelledBy (h : WitnessLine aaf E line) : SpelledBy aaf.ids2arguments E line := by
  cases h with
  | separated l hl => exact ⟨l, hl, .inl rfl⟩
  | terminated l hl => exact ⟨l, hl, .inr rfl⟩

theorem NumberedLine.spelledBy (h : NumberedLine E line) : SpelledBy argNumber E line := by
  obtain ⟨l, hl, rfl⟩ := h
  exact ⟨l, hl, .inr rfl⟩

end Lines

section Queries
variable {aaf : AAF n} {a : Fin n} {m : Mode} {σ : Semantics}

/-- The runs of `p` print the answer to a query and the text that belongs to it. -/
def AnswersQuery (aaf : AAF n) (m : Mode) (σ : Semantics) (a : Fin n) (p : Prog World Unit) : Prop :=
  ∀ w, Prog.Total p (fun _ w' => ∃ r text, (r = true ↔ m.Accepts aaf.framework σ a) ∧
    Witnessed aaf.framework aaf.ids2arguments m σ a r text ∧
      w'.stdout = w.stdout ++ (answer r ++ text)) w

theorem answersQuery_bare {r : Bool} (hr : r = true ↔ m.Accepts aaf.framework σ a)
    (h : ¬ WitnessDue aaf.framework a r m σ) : AnswersQuery aaf m σ a (printf (answer r)) := by
  intro w
  apply Prog.total_atomic.2
  refine ⟨r, "", hr, .bare h, ?_⟩
  rw [String.append_empty]

/-- An answer and the text of a run that prints some extension. -/
theorem answersQuery_search {r : Bool} {search : Prog World Unit} {P : Set (Fin n) → Prop}
    (hr : r = true ↔ m.Accepts aaf.framework σ a) (hdue : WitnessDue aaf.framework a r m σ)
    (hname : ¬ WitnessByNumber aaf.framework a m σ)
    (hP : ∀ E, P E → (m.witness σ).Extension aaf.framework E ∧ (r = true ↔ a ∈ E))
    (hsearch : ∀ w, Prog.Total search (fun _ w' => ∃ line,
      GivesWitness aaf P line ∧ w'.stdout = w.stdout ++ line) w) :
    AnswersQuery aaf m σ a (do printf (answer r); search) := by
  intro w
  apply Prog.total_atomic_bind.2
  apply (hsearch _).mono
  rintro _ w' ⟨line, ⟨E, hE, hline⟩, hw'⟩
  refine ⟨r, line, hr, .named hdue hname (hP E hE).1 (hP E hE).2 hline.spelledBy, ?_⟩
  rw [hw', String.append_assoc]

/-- A decision that reports its result, run for its output. -/
theorem answersQuery_reported {decide : Prog World Bool} {P : Bool → String → Prop}
    (h : ∀ w, Prog.Total decide (fun r w' => (r = true ↔ m.Accepts aaf.framework σ a) ∧
      Reported true r (P r) w w') w)
    (htext : ∀ r text, (r = true ↔ m.Accepts aaf.framework σ a) → P r text →
      Witnessed aaf.framework aaf.ids2arguments m σ a r text) :
    AnswersQuery aaf m σ a (discard decide) := by
  intro w
  apply Prog.Total.bind
  apply (h w).mono
  rintro r w' ⟨hr, text, hP, hw'⟩
  exact Prog.total_pure.2 ⟨r, text, hr, htext r text hr hP, hw'⟩

theorem answersQuery_numbered {decide : Prog World Bool} {P : Set (Fin n) → Prop} (sought : Bool)
    (hdue : ∀ r, WitnessDue aaf.framework a r m σ ↔ r = sought)
    (hnumber : WitnessByNumber aaf.framework a m σ)
    (hP : ∀ E, P E → (m.witness σ).Extension aaf.framework E ∧ (sought = true ↔ a ∈ E))
    (h : ∀ w, Prog.Total decide (fun r w' => (r = true ↔ m.Accepts aaf.framework σ a) ∧
      Reported true r (NumberedText sought P r) w w') w) :
    AnswersQuery aaf m σ a (discard decide) := by
  apply answersQuery_reported h
  intro r text _ htext
  rw [NumberedText] at htext
  split_ifs at htext with hr
  · obtain ⟨E, hE, hline⟩ := htext
    apply Witnessed.numbered ((hdue r).2 hr) hnumber (hP E hE).1 _ hline.spelledBy
    rw [hr]
    exact (hP E hE).2
  · subst htext
    exact .bare fun hsought => hr ((hdue r).1 hsought)

theorem DsprText.witnessed {r : Bool} {text : String} (h : DsprText aaf a r text) :
    Witnessed aaf.framework aaf.ids2arguments .ds .pr a r text := by
  rw [DsprText] at h
  cases r with
  | true =>
    obtain rfl : text = "" := h
    exact .bare (by simp [WitnessDue])
  | false =>
    obtain ⟨E, ⟨hE, ha⟩, hline⟩ := h
    exact .named (by simp [WitnessDue]) id hE (iff_of_false Bool.false_ne_true ha) hline.spelledBy

theorem RangePost.accepts {task : RangeTask n} {r : Bool} (hm : task.sought = true ↔ m = .dc)
    (h : r = task.sought ↔ ∃ E, σ.Extension aaf.framework E ∧ task.Meets a E) :
    r = true ↔ m.Accepts aaf.framework σ a := by
  cases m with
  | dc =>
    have hs := hm.2 rfl
    simpa only [RangeTask.Meets, hs, iff_true, Mode.Accepts] using h
  | ds =>
    have hs : task.sought = false := by simpa using hm
    rw [← Bool.not_eq_false, ← hs, h, Mode.Accepts]
    simp only [RangeTask.Meets, hs, not_exists, not_and, Bool.false_eq_true, iff_false, not_not]

/-- If the grounded extension decides everything it is the only extension, and a YES need not have
its witness. -/
theorem RangeText.witnessed {task : RangeTask n} {r : Bool} {text : String}
    (hm : task.sought = true ↔ m = .dc) (hσ : m.witness σ = σ)
    (hname : ¬ WitnessByNumber aaf.framework a m σ)
    (hdue : WitnessDue aaf.framework a r m σ ↔ (r = true ↔ m = .dc) ∨
      (r = true → task.witnessAfterYes = true) ∧ aaf.framework.GroundedTotal)
    (hr : r = true ↔ m.Accepts aaf.framework σ a)
    (h : RangeText task aaf a (σ.Extension aaf.framework) r text) :
    Witnessed aaf.framework aaf.ids2arguments m σ a r text := by
  have hsought : r = task.sought ↔ (r = true ↔ m = .dc) := by
    rw [← hm, Bool.eq_iff_iff]
  rw [← hsought] at hdue
  rw [RangeText] at h
  split_ifs at h with hs hyes
  · obtain ⟨E, ⟨hE, ha⟩, hline⟩ := h
    apply Witnessed.named (hdue.2 (.inl hs)) hname (by rwa [hσ]) _ hline.spelledBy
    rw [hs]
    exact ha.symm
  · obtain ⟨htotal, E, hE, hline⟩ | ⟨hopen, rfl⟩ := h
    · apply Witnessed.named (hdue.2 (.inr ⟨hyes, htotal⟩)) hname (by rwa [hσ]) _ hline.spelledBy
      -- all extensions agree with an answer that is not the one sought
      cases m with
      | dc =>
        have hfalse : r = false := by simp_all
        rw [hfalse] at hr ⊢
        exact iff_of_false Bool.false_ne_true fun ha => Bool.false_ne_true (hr.2 ⟨E, hE, ha⟩)
      | ds =>
        have htrue : r = true := by simp_all
        exact iff_of_true htrue (hr.1 htrue E hE)
    · exact .bare fun hd => (hdue.1 hd).elim hs fun hd => hopen hd.2
  · obtain rfl : text = "" := h
    exact .bare fun hd => (hdue.1 hd).elim hs fun hd => hyes hd.1

theorem answersQuery_range {ω : TotalOracle} {task : RangeTask n} {L : Set (Fin n) → Set (Fin n) → Prop}
    (hc : task.Correct aaf (computeGrounded aaf).1 L (σ.Extension aaf.framework))
    (hm : task.sought = true ↔ m = .dc) (hσ : m.witness σ = σ)
    (hname : ¬ WitnessByNumber aaf.framework a m σ)
    (hdue : ∀ r, WitnessDue aaf.framework a r m σ ↔ (r = true ↔ m = .dc) ∨
      (r = true → task.witnessAfterYes = true) ∧ aaf.framework.GroundedTotal) :
    AnswersQuery aaf m σ a
      (discard (rangeQuery ω.answer task aaf (computeGrounded aaf).1 a true)) := by
  apply answersQuery_reported (P := RangeText task aaf a (σ.Extension aaf.framework))
  · intro w
    apply (total_rangeQuery ω hc (computeGrounded_represents aaf) w).mono
    rintro r w' ⟨hr, htext⟩
    exact ⟨RangePost.accepts hm hr, htext⟩
  · exact fun r text hr htext => htext.witnessed hm hσ hname (hdue r) hr

/-- The answer for the ideal extension is the one for all of them. -/
theorem IdealAnswer.answers {w w' : World} (hin : a ∉ aaf.framework.grounded)
    (hout : a ∉ aaf.framework.attackedBy aaf.framework.grounded) (h : IdealAnswer aaf a w w') :
    ∃ r text, (r = true ↔ m.Accepts aaf.framework .id a) ∧
      Witnessed aaf.framework aaf.ids2arguments m .id a r text ∧
        w'.stdout = w.stdout ++ (answer r ++ text) := by
  obtain ⟨r, line, ⟨E, ⟨hE, ha⟩, hline⟩, hw'⟩ := h
  refine ⟨r, line, ha.trans ?_, ?_, hw'⟩
  · cases m with
    | dc => exact ⟨fun h => ⟨E, hE, h⟩, fun ⟨I, hI, h⟩ => hI.unique hE ▸ h⟩
    | ds => exact ⟨fun h I hI => hE.unique hI ▸ h, fun h => h E hE⟩
  · cases m with
    | dc => exact .named hout id (σ := .id) hE ha hline.spelledBy
    | ds => exact .named hin id (σ := .id) hE ha hline.spelledBy

end Queries

section Dispatch
variable (ω : Oracle) (aaf : AAF n) (grounded : Labeling) (arg : Option (Fin n)) (a : Fin n)

theorem solveSwitch_sepr : solveSwitch ω ⟨Semantics.pr.seTrack, arg⟩ aaf grounded =
    solveSepr ω aaf grounded none := by simp [solveSwitch, Semantics.seTrack]

theorem solveSwitch_sest : solveSwitch ω ⟨Semantics.st.seTrack, arg⟩ aaf grounded =
    solveSest ω aaf grounded := by simp [solveSwitch, Semantics.seTrack]

theorem solveSwitch_sesst : solveSwitch ω ⟨Semantics.sst.seTrack, arg⟩ aaf grounded =
    solveSesst ω aaf grounded := by simp [solveSwitch, Semantics.seTrack]

theorem solveSwitch_seid : solveSwitch ω ⟨Semantics.id.seTrack, arg⟩ aaf grounded =
    solveSeid ω aaf grounded := by simp [solveSwitch, Semantics.seTrack]

theorem solveSwitch_sestg : solveSwitch ω ⟨Semantics.stg.seTrack, arg⟩ aaf grounded =
    solveSestg ω aaf grounded := by simp [solveSwitch, Semantics.seTrack]

theorem solveSwitch_dcco {σ : Semantics} (hσ : σ = .co ∨ σ = .pr) :
    solveSwitch ω ⟨Mode.dc.track σ, some a⟩ aaf grounded =
      discard (solveDcco ω aaf grounded a true) := by
  rcases hσ with rfl | rfl <;> simp [solveSwitch, Mode.track, withArg]

theorem solveSwitch_dcst : solveSwitch ω ⟨Mode.dc.track .st, some a⟩ aaf grounded =
    discard (solveDcst ω aaf grounded a true) := by simp [solveSwitch, Mode.track, withArg]

theorem solveSwitch_dsst : solveSwitch ω ⟨Mode.ds.track .st, some a⟩ aaf grounded =
    discard (solveDsst ω aaf grounded a true) := by simp [solveSwitch, Mode.track, withArg]

theorem solveSwitch_dcsst : solveSwitch ω ⟨Mode.dc.track .sst, some a⟩ aaf grounded =
    discard (rangeQuery ω (dcsst n) aaf grounded a true) := by
  simp [solveSwitch, Mode.track, withArg, solveDcsst]

theorem solveSwitch_dssst : solveSwitch ω ⟨Mode.ds.track .sst, some a⟩ aaf grounded =
    discard (rangeQuery ω (dssst n) aaf grounded a true) := by
  simp [solveSwitch, Mode.track, withArg, solveDssst]

theorem solveSwitch_dcstg : solveSwitch ω ⟨Mode.dc.track .stg, some a⟩ aaf grounded =
    discard (rangeQuery ω (dcstg n) aaf grounded a true) := by
  simp [solveSwitch, Mode.track, withArg, solveDcstg]

theorem solveSwitch_dsstg : solveSwitch ω ⟨Mode.ds.track .stg, some a⟩ aaf grounded =
    discard (rangeQuery ω (dsstg n) aaf grounded a true) := by
  simp [solveSwitch, Mode.track, withArg, solveDsstg]

theorem solveSwitch_dspr : solveSwitch ω ⟨Mode.ds.track .pr, some a⟩ aaf grounded =
    discard (solveDspr ω aaf grounded a true) := by
  simp [solveSwitch, Mode.track, withArg]

theorem solveSwitch_id (m : Mode) : solveSwitch ω ⟨m.track .id, some a⟩ aaf grounded = (do
    let ideal ← computeIdeal ω aaf grounded
    printf (answer (ideal.contains a))
    printf (ideal.printI23 aaf)) := by
  cases m <;> simp [solveSwitch, Mode.track, printWitness, withArg]

theorem solveSwitch_ceco : solveSwitch ω ⟨CountTrack.co.track, arg⟩ aaf grounded =
    solveCeco ω aaf grounded := by simp [solveSwitch, CountTrack.track]

theorem solveSwitch_cepr : solveSwitch ω ⟨CountTrack.pr.track, arg⟩ aaf grounded =
    solveCepr ω aaf grounded := by simp [solveSwitch, CountTrack.track]

theorem solveSwitch_cest : solveSwitch ω ⟨CountTrack.st.track, arg⟩ aaf grounded =
    solveCest ω aaf grounded := by simp [solveSwitch, CountTrack.track]

end Dispatch

section Searches
variable (ω : TotalOracle) (aaf : AAF n) {σ : Semantics}

theorem Semantics.seTrack_ne_track (σ τ : Semantics) (m : Mode) : σ.seTrack ≠ m.track τ := by
  cases σ <;> cases m <;> cases τ <;> decide

theorem total_switch_search (hσ : σ = .pr ∨ σ = .sst ∨ σ = .id ∨ σ = .stg) (arg : Option (Fin n))
    (w : World) :
    Prog.Total (solveSwitch ω.answer ⟨σ.seTrack, arg⟩ aaf (computeGrounded aaf).1) (fun _ w' =>
      ∃ line, GivesWitness aaf (σ.Extension aaf.framework) line ∧ w'.stdout = w.stdout ++ line) w := by
  have hg := computeGrounded_represents aaf
  rcases hσ with rfl | rfl | rfl | rfl
  · rw [solveSwitch_sepr]
    apply (total_solveSepr ω hg (by simp) w).mono
    rintro _ w' ⟨line, ⟨E, hE, hline⟩, hw'⟩
    exact ⟨line, ⟨E, hE.1, hline⟩, hw'⟩
  · rw [solveSwitch_sesst]
    apply (total_solveSeRange ω (dcsst_correct hg) hg Framework.SemiStable.exists w).mono
    rintro _ w' ⟨E, line, hE, hline, hw'⟩
    exact ⟨line, ⟨E, hE, hline⟩, hw'⟩
  · rw [solveSwitch_seid]
    exact total_seid ω aaf w
  · rw [solveSwitch_sestg]
    apply (total_solveSeRange ω dcstg_correct hg Framework.Stage.exists w).mono
    rintro _ w' ⟨E, line, hE, hline, hw'⟩
    exact ⟨line, ⟨E, hE, hline⟩, hw'⟩

theorem total_search (σ : Semantics) (w : World) :
    Prog.Total (taasSolve aaf (Problem.search σ).task (solveSwitch ω.answer)) (fun _ w' =>
      ∃ out, (Problem.search σ).Solved aaf.framework aaf.ids2arguments out ∧
        w'.stdout = w.stdout ++ out) w := by
  have hg := computeGrounded_represents aaf
  by_cases hgr : σ = .gr ∨ σ = .co
  · have htrack : σ.seTrack = "SE-GR" ∨ σ.seTrack = "SE-CO" := by
      rcases hgr with rfl | rfl
      · exact .inl rfl
      · exact .inr rfl
    have hext : σ.Extension aaf.framework aaf.framework.grounded := by
      rcases hgr with rfl | rfl
      · rfl
      · exact Framework.grounded_complete
    obtain ⟨E, hE, hline⟩ := grounded_givesWitness aaf hext
    rw [taasSolve_se htrack]
    apply Prog.total_atomic.2
    exact ⟨_, .inl ⟨E, hE, hline.spelledBy⟩, rfl⟩
  · obtain ⟨hgr, hco⟩ := not_or.1 hgr
    have hswitch : taasSolve aaf (Problem.search σ).task (solveSwitch ω.answer) =
        solveSwitch ω.answer ⟨σ.seTrack, none⟩ aaf (computeGrounded aaf).1 := by
      apply taasSolve_other
      · cases σ <;> simp_all [Problem.task, Semantics.seTrack]
      · cases σ <;> simp_all [Problem.task, Semantics.seTrack]
      · exact fun m τ => σ.seTrack_ne_track τ m
    rw [hswitch]
    by_cases hst : σ = .st
    · subst hst
      rw [solveSwitch_sest]
      apply (total_solveSest ω hg w).mono
      rintro _ w' (⟨hno, hw'⟩ | ⟨line, ⟨E, hE, hline⟩, hw'⟩)
      · exact ⟨_, .inr ⟨rfl, fun E hE => hno ⟨E, hE⟩, rfl⟩, hw'⟩
      · exact ⟨_, .inl ⟨E, hE, hline.spelledBy⟩, hw'⟩
    · have hσ : σ = .pr ∨ σ = .sst ∨ σ = .id ∨ σ = .stg := by
        cases σ <;> simp_all
      apply (total_switch_search ω aaf hσ none w).mono
      rintro _ w' ⟨line, ⟨E, hE, hline⟩, hw'⟩
      exact ⟨_, .inl ⟨E, hE, hline.spelledBy⟩, hw'⟩

end Searches

section Deciding
variable (ω : TotalOracle) (aaf : AAF n) (a : Fin n) {m : Mode} {σ : Semantics}

theorem answersQuery_dcco (hσ : σ = .co ∨ σ = .pr) (hin : a ∉ aaf.framework.grounded) :
    AnswersQuery aaf .dc σ a (discard (solveDcco ω.answer aaf (computeGrounded aaf).1 a true)) := by
  have haccepts : (∃ E, aaf.framework.Complete E ∧ a ∈ E) ↔
      Mode.dc.Accepts aaf.framework σ a := by
    rcases hσ with rfl | rfl
    · exact Iff.rfl
    · exact Framework.exists_complete_mem_iff.trans Framework.exists_preferred_mem_iff.symm
  apply answersQuery_numbered true _ _ _ fun w =>
    (total_solveDcco ω (computeGrounded_represents aaf) w).mono fun r w' h =>
      ⟨h.1.trans haccepts, h.2⟩
  · rcases hσ with rfl | rfl <;> simp [WitnessDue]
  · rcases hσ with rfl | rfl <;> exact hin
  · rintro E ⟨hE, ha⟩
    refine ⟨?_, iff_of_true rfl ha⟩
    rcases hσ with rfl | rfl <;> exact hE

theorem answersQuery_dcst : AnswersQuery aaf .dc .st a
    (discard (solveDcst ω.answer aaf (computeGrounded aaf).1 a true)) := by
  apply answersQuery_numbered (σ := .st) true (by simp [WitnessDue]) trivial _
    (total_solveDcst ω (computeGrounded_represents aaf))
  exact fun E h => ⟨h.1, iff_of_true rfl h.2⟩

theorem answersQuery_dsst : AnswersQuery aaf .ds .st a
    (discard (solveDsst ω.answer aaf (computeGrounded aaf).1 a true)) := by
  apply answersQuery_numbered (σ := .st) false (by simp [WitnessDue]) trivial _
    (total_solveDsst ω (computeGrounded_represents aaf))
  exact fun E h => ⟨h.1, iff_of_false Bool.false_ne_true h.2⟩

theorem answersQuery_dspr : AnswersQuery aaf .ds .pr a
    (discard (solveDspr ω.answer aaf (computeGrounded aaf).1 a true)) :=
  answersQuery_reported (total_solveDspr ω (computeGrounded_represents aaf))
    fun _ _ _ htext => htext.witnessed

theorem not_groundedTotal (h : a ∉ aaf.framework.grounded)
    (hout : a ∉ aaf.framework.attackedBy aaf.framework.grounded) :
    ¬ aaf.framework.GroundedTotal := fun htotal => (htotal a).elim h hout

/-- A query that the grounded labeling leaves open is decided by the function of its track. -/
theorem answersQuery_switch (h : ¬ Settled aaf.framework a m σ) : AnswersQuery aaf m σ a
    (solveSwitch ω.answer ⟨m.track σ, some a⟩ aaf (computeGrounded aaf).1) := by
  have hg := computeGrounded_represents aaf
  have hopen : σ = .sst ∨ σ = .id → a ∉ aaf.framework.grounded ∧
      a ∉ aaf.framework.attackedBy aaf.framework.grounded := by
    rintro (rfl | rfl)
    · exact not_or.1 h
    · exact not_or.1 h
  cases σ with
  | gr => exact absurd trivial h
  | co =>
    cases m with
    | dc =>
      rw [solveSwitch_dcco _ _ _ _ (.inl rfl)]
      exact answersQuery_dcco ω aaf a (.inl rfl) (not_or.1 h).1
    | ds => exact absurd trivial h
  | pr =>
    cases m with
    | dc =>
      rw [solveSwitch_dcco _ _ _ _ (.inr rfl)]
      exact answersQuery_dcco ω aaf a (.inr rfl) (not_or.1 h).1
    | ds =>
      rw [solveSwitch_dspr]
      exact answersQuery_dspr ω aaf a
  | st =>
    cases m with
    | dc =>
      rw [solveSwitch_dcst]
      exact answersQuery_dcst ω aaf a
    | ds =>
      rw [solveSwitch_dsst]
      exact answersQuery_dsst ω aaf a
  | sst =>
    obtain ⟨hin, hout⟩ := hopen (.inl rfl)
    have hpartial := not_groundedTotal aaf a hin hout
    cases m with
    | dc =>
      rw [solveSwitch_dcsst]
      exact answersQuery_range (dcsst_correct hg) (iff_of_true rfl rfl) rfl id
        (by simp [WitnessDue, hpartial])
    | ds =>
      rw [solveSwitch_dssst]
      exact answersQuery_range (dssst_correct hg) (by simp [dssst]) rfl id
        (by simp [WitnessDue, hpartial])
  | id =>
    obtain ⟨hin, hout⟩ := hopen (.inr rfl)
    exact fun w => (total_switch_id ω aaf a m w).mono fun _ _ h => h.answers hin hout
  | stg =>
    cases m with
    | dc =>
      rw [solveSwitch_dcstg]
      exact answersQuery_range dcstg_correct (iff_of_true rfl rfl) rfl id
        (by simp [WitnessDue, dcstg])
    | ds =>
      rw [solveSwitch_dsstg]
      exact answersQuery_range dsstg_correct (by simp [dsstg]) rfl id
        (by simp [WitnessDue, dsstg])

theorem answersQuery_printGrounded {r : Bool} (hr : r = true ↔ m.Accepts aaf.framework σ a)
    (hdue : WitnessDue aaf.framework a r m σ) (hname : ¬ WitnessByNumber aaf.framework a m σ)
    (hext : (m.witness σ).Extension aaf.framework aaf.framework.grounded)
    (hagrees : r = true ↔ a ∈ aaf.framework.grounded) :
    AnswersQuery aaf m σ a (do
      printf (answer r)
      printf ((computeGrounded aaf).1.printI23 aaf ++ "\n")) := by
  apply answersQuery_search hr hdue hname (P := fun E => E = aaf.framework.grounded)
  · rintro _ rfl
    exact ⟨hext, hagrees⟩
  · intro w
    apply Prog.total_atomic.2
    exact ⟨_, grounded_givesWitness aaf rfl, rfl⟩

theorem answersQuery_in (ha : a ∈ aaf.framework.grounded) (hgr : σ ≠ .gr)
    (hco : m = .ds → σ ≠ .co) (hst : m = .dc → σ ≠ .st) (hstg : σ ≠ .stg) :
    AnswersQuery aaf m σ a (taasSolve aaf ⟨m.track σ, some a⟩ (solveSwitch ω.answer)) := by
  have hin := ((computeGrounded_represents aaf).in_iff a).2 ha
  have hyes := iff_of_true (a := true = true) rfl (Mode.accepts_of_grounded hstg ha hst)
  cases m with
  | ds =>
    rw [taasSolve_ds_in hin hgr (hco rfl) hstg]
    apply answersQuery_bare hyes
    cases σ <;> simp_all [WitnessDue]
  | dc =>
    by_cases hσ : σ = .co
    · subst hσ
      rw [taasSolve_dcco_in hin]
      exact answersQuery_printGrounded aaf a hyes (iff_of_true rfl rfl) (not_not_intro ha)
        Framework.grounded_complete (iff_of_true rfl ha)
    · have hsearch : σ = .pr ∨ σ = .sst ∨ σ = .id := by
        have := hst rfl
        cases σ <;> simp_all
      have hout : a ∉ aaf.framework.attackedBy aaf.framework.grounded :=
        fun hout => Framework.grounded_complete.notMem_of_grounded_attacks hout ha
      rw [taasSolve_dc_in hin hsearch]
      have hdue : WitnessDue aaf.framework a true .dc σ := by
        rcases hsearch with rfl | rfl | rfl <;> simp [WitnessDue, hout]
      have hname : ¬ WitnessByNumber aaf.framework a .dc σ := by
        rcases hsearch with rfl | rfl | rfl <;> simp [WitnessByNumber, ha]
      apply answersQuery_search hyes hdue hname (P := σ.Extension aaf.framework)
      · intro E hE
        refine ⟨?_, iff_of_true rfl (Semantics.mem_of_grounded hstg ha hE)⟩
        rcases hsearch with rfl | rfl | rfl
        · exact Framework.Preferred.complete hE
        · exact hE
        · exact hE
      · apply total_switch_search ω aaf
        rcases hsearch with h | h | h <;> simp [h]

theorem answersQuery_out (ha : a ∈ aaf.framework.attackedBy aaf.framework.grounded) (hgr : σ ≠ .gr)
    (hco : m = .ds → σ ≠ .co) (hst : m = .ds → σ ≠ .st) (hstg : σ ≠ .stg) :
    AnswersQuery aaf m σ a (taasSolve aaf ⟨m.track σ, some a⟩ (solveSwitch ω.answer)) := by
  have hg := computeGrounded_represents aaf
  have hnotin : (computeGrounded aaf).1.labIn.get a = false := by
    rw [Bool.eq_false_iff, Ne, hg.in_iff]
    exact Semantics.notMem_of_grounded_attacks (σ := .gr) (by simp) ha rfl
  have hout := (hg.out_iff a).2 ha
  have hno : false = true ↔ m.Accepts aaf.framework σ a :=
    iff_of_false Bool.false_ne_true (Mode.not_accepts_of_grounded_attacks hstg ha hst)
  cases m with
  | dc =>
    rw [taasSolve_dc_out hnotin hout hgr hstg]
    apply answersQuery_bare hno
    cases σ <;> simp_all [WitnessDue]
  | ds =>
    have hsearch : σ = .pr ∨ σ = .sst ∨ σ = .id := by
      have := hco rfl
      have := hst rfl
      cases σ <;> simp_all
    have hin : a ∉ aaf.framework.grounded :=
      fun hin => Framework.grounded_complete.notMem_of_grounded_attacks ha hin
    rw [taasSolve_ds_out hnotin hout hsearch]
    have hdue : WitnessDue aaf.framework a false .ds σ := by
      rcases hsearch with rfl | rfl | rfl <;> simp [WitnessDue, hin]
    have hname : ¬ WitnessByNumber aaf.framework a .ds σ := by
      rcases hsearch with rfl | rfl | rfl <;> exact id
    apply answersQuery_search hno hdue hname (P := σ.Extension aaf.framework)
    · intro E hE
      exact ⟨hE, iff_of_false Bool.false_ne_true (Semantics.notMem_of_grounded_attacks hstg ha hE)⟩
    · apply total_switch_search ω aaf
      rcases hsearch with h | h | h <;> simp [h]

/-- Every query is answered, whether the grounded labeling settles it or not. -/
theorem answersQuery_taasSolve (m : Mode) (σ : Semantics) :
    AnswersQuery aaf m σ a (taasSolve aaf ⟨m.track σ, some a⟩ (solveSwitch ω.answer)) := by
  by_cases hgr : σ = .gr ∨ (m = .ds ∧ σ = .co)
  · have hin := (computeGrounded_represents aaf).in_iff a
    rw [taasSolve_grounded hgr]
    rcases hgr with rfl | ⟨rfl, rfl⟩
    · exact answersQuery_printGrounded aaf a (hin.trans Mode.accepts_gr_iff.symm) trivial
        (by cases m <;> exact id) (by cases m <;> rfl) hin
    · exact answersQuery_printGrounded aaf a (hin.trans Mode.ds_accepts_co_iff.symm) trivial id
        Framework.grounded_complete hin
  obtain ⟨hgr, hco⟩ := not_or.1 hgr
  replace hco : m = .ds → σ ≠ .co := fun hm hσ => hco ⟨hm, hσ⟩
  by_cases hsettled : Settled aaf.framework a m σ
  · by_cases ha : a ∈ aaf.framework.grounded
    · apply answersQuery_in ω aaf a ha hgr hco
      · rintro rfl rfl
        exact Semantics.notMem_of_grounded_attacks (σ := .gr) (by simp) hsettled rfl ha
      · rintro rfl
        exact hsettled
    · have hout : a ∈ aaf.framework.attackedBy aaf.framework.grounded := by
        cases m <;> cases σ <;> simp_all [Settled]
      apply answersQuery_out ω aaf a hout hgr hco
      · rintro rfl rfl
        exact ha hsettled
      · rintro rfl
        exact hsettled
  · rw [taasSolve_of_not_settled hsettled]
    exact answersQuery_switch ω aaf a hsettled

end Deciding

theorem eaPr_ne_track (m : Mode) (σ : Semantics) : "EA-PR" ≠ m.track σ := by
  cases m <;> cases σ <;> decide

theorem CountTrack.track_ne (κ : CountTrack) : κ.track ≠ "SE-GR" ∧ κ.track ≠ "SE-CO" ∧
    ∀ m σ, κ.track ≠ Mode.track m σ := by
  refine ⟨by cases κ <;> decide, by cases κ <;> decide, fun m σ => ?_⟩
  cases κ <;> cases m <;> cases σ <;> decide

section Unsettled
variable (ω : Oracle) (aaf : AAF n)

theorem taasSolve_count (κ : CountTrack) :
    taasSolve aaf (Problem.count κ).task (solveSwitch ω) =
      solveSwitch ω ⟨κ.track, none⟩ aaf (computeGrounded aaf).1 :=
  taasSolve_other κ.track_ne.1 κ.track_ne.2.1 κ.track_ne.2.2

theorem taasSolve_accepted : taasSolve aaf Problem.accepted.task (solveSwitch ω) =
    solveEapr ω aaf (computeGrounded aaf).1 := by
  rw [Problem.task, taasSolve_other (by simp) (by simp) eaPr_ne_track]
  simp [solveSwitch]

end Unsettled

section All
variable (ω : TotalOracle) (aaf : AAF n)

theorem total_count (κ : CountTrack)
    (hcount : {E | κ.semantics.Extension aaf.framework E}.ncard ≤ intMax) (w : World) :
    Prog.Total (taasSolve aaf (Problem.count κ).task (solveSwitch ω.answer)) (fun _ w' =>
      w'.stdout = w.stdout ++
        (toString {E | κ.semantics.Extension aaf.framework E}.ncard ++ "\n")) w := by
  rw [taasSolve_count]
  cases κ with
  | co =>
    rw [solveSwitch_ceco]
    exact (total_solveCeco ω aaf w).mono fun _ _ h => h.1.eq_iff.2 hcount
  | pr =>
    rw [solveSwitch_cepr]
    exact (total_solveCepr ω (computeGrounded_represents aaf) w).mono
      fun _ _ h => h.eq_iff.2 hcount
  | st =>
    rw [solveSwitch_cest]
    exact (total_solveCest ω aaf w).mono fun _ _ h => h.1.eq_iff.2 hcount

/-- Whatever the framework, the solver and the problem: the program terminates and prints a
solution. -/
theorem total_taasSolve (p : Problem n)
    (hcount : ∀ κ, p = .count κ → {E | κ.semantics.Extension aaf.framework E}.ncard ≤ intMax)
    (w : World) :
    Prog.Total (taasSolve aaf p.task (solveSwitch ω.answer)) (fun _ w' => ∃ out,
      p.Solved aaf.framework aaf.ids2arguments out ∧ w'.stdout = w.stdout ++ out) w := by
  cases p with
  | query m σ a =>
    apply (answersQuery_taasSolve ω aaf a m σ w).mono
    rintro _ w' ⟨r, text, hr, htext, hw'⟩
    exact ⟨_, ⟨r, text, hr, htext, rfl⟩, hw'⟩
  | search σ => exact total_search ω aaf σ w
  | count κ => exact (total_count ω aaf κ (hcount κ rfl) w).mono fun _ _ hw' => ⟨_, rfl, hw'⟩
  | accepted =>
    rw [taasSolve_accepted]
    apply (total_solveEapr ω (computeGrounded_represents aaf) w).mono
    rintro _ w' ⟨line, ⟨l, hl, rfl⟩, hw'⟩
    exact ⟨_, ⟨l, hl, rfl⟩, hw'⟩

end All

end TaasFudge
