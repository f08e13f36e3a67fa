import TaasFudge.Argumentation.Inclusion
import TaasFudge.Argumentation.Renaming
import TaasFudge.Taas.AnySolver
import TaasFudge.Taas.Witness
import TaasFudge.Tasks.Exact

/-! # Agreement of the answers

What the program prints for one problem restricts what it prints for others, whichever solvers the
two runs use: queries about the same argument, the counts, and the list of EA-PR. Frameworks that
differ in the order and the names of their arguments get the same answers.
-/

namespace TaasFudge

open Dimacs

variable {n : ℕ}

/-- Every run prints `out` and nothing else. -/
def Outputs (p : Prog World Unit) (out : String) : Prop :=
  ∀ w, Prog.Total p (fun _ w' => w'.stdout = w.stdout ++ out) w

/-- Every run prints the answer `r`, whatever follows it. -/
def Answered (p : Prog World Unit) (r : Bool) : Prop :=
  ∀ w, Prog.Total p (fun _ w' => ∃ text, w'.stdout = w.stdout ++ (answer r ++ text)) w

/-- Every run prints the answer `r` without a call that is not allowed. -/
def ProperlyAnswered (p : Prog World Unit) (r : Bool) : Prop :=
  ∀ w, Prog.Total p (fun _ w' => (∃ text, w'.stdout = w.stdout ++ (answer r ++ text)) ∧
    (w.protocolOk = true → w'.protocolOk = true)) w

section Text
variable {a b c : String} {r r' : Bool}

theorem string_append_cancel (h : a ++ b = a ++ c) : b = c := by
  apply String.toList_inj.1
  have hlist := congrArg String.toList h
  rw [String.toList_append, String.toList_append] at hlist
  exact List.append_cancel_left hlist

theorem answer_append_inj (h : answer r ++ a = answer r' ++ b) : r = r' := by
  have hhead := congrArg (fun s : String => s.toList.head?) h
  cases r <;> cases r' <;> simp [answer] at hhead <;> rfl

theorem SpelledBy.ne_no {name : Fin n → String} {E : Set (Fin n)} {line : String}
    (h : SpelledBy name E line) : line ≠ "NO\n" := by
  obtain ⟨l, -, rfl | rfl⟩ := h
  · intro heq
    have hhead := congrArg (fun s : String => s.toList.head?) heq
    simp at hhead
  · intro heq
    have hhead := congrArg (fun s : String => s.toList.head?) heq
    simp [terminatedLine_toList] at hhead

theorem Outputs.unique {p : Prog World Unit} {Q : String → Prop} {out : String} (h : Outputs p out)
    (hQ : ∀ w, Prog.Total p (fun _ w' => ∃ out, Q out ∧ w'.stdout = w.stdout ++ out) w) :
    Q out := by
  obtain ⟨_, w', hr, hout⟩ := h ⟨0, "", true⟩
  obtain ⟨out', hout', hw'⟩ := (hQ _).of_returns hr
  have heq : out = out' := string_append_cancel (hout.symm.trans hw')
  exact heq ▸ hout'

end Text

section Runs
variable (ω : SatOracle) (aaf : AAF n)

def runOf (p : Problem n) : Prog World Unit := taasSolve aaf p.task (solveSwitch ω.answer)

variable {m : Mode} {σ : Semantics} {a : Fin n} {r : Bool}

theorem answered_iff : Answered (runOf ω aaf (.query m σ a)) r ↔
    (r = true ↔ m.Accepts aaf.framework σ a) := by
  constructor
  · intro h
    obtain ⟨_, w', hr, text, hw'⟩ := h ⟨0, "", true⟩
    obtain ⟨r', text', hright, -, hw''⟩ := (answersOpen_taasSolve ω aaf m σ a _).of_returns hr
    have heq : r = r' := answer_append_inj (string_append_cancel (hw'.symm.trans hw''))
    exact heq ▸ hright
  · intro h w
    apply (answersOpen_taasSolve ω aaf m σ a w).mono
    rintro _ w' ⟨r', text, hright, -, hw'⟩
    have heq : r = r' := Bool.eq_iff_iff.2 (h.trans hright.symm)
    exact ⟨text, heq ▸ hw'⟩

theorem answered_yes_iff : Answered (runOf ω aaf (.query m σ a)) true ↔
    m.Accepts aaf.framework σ a := by
  simp only [answered_iff, true_iff]

theorem ProperlyAnswered.accepts (h : ProperlyAnswered (runOf ω aaf (.query m σ a)) r) :
    r = true ↔ m.Accepts aaf.framework σ a :=
  (answered_iff ω aaf).1 fun w => (h w).mono fun _ _ hrun => hrun.1

theorem properlyAnswered_iff (h : (Problem.query m σ a).task.Allowed aaf) :
    ProperlyAnswered (runOf ω aaf (.query m σ a)) r ↔ (r = true ↔ m.Accepts aaf.framework σ a) := by
  constructor
  · exact fun hr => hr.accepts
  · intro hr w
    exact (respects_taasSolve ω h).total ((answered_iff ω aaf).2 hr w)

/-- Only queries about stage semantics can make a call that is not allowed. -/
theorem allowed_query (hσ : σ ≠ .stg) : (Problem.query m σ a).task.Allowed aaf := by
  apply TaskSpecification.Allowed.of_ne <;>
    cases m <;> cases σ <;> simp_all [Problem.task, Mode.track]

theorem properlyAnswered_iff_of_ne (hσ : σ ≠ .stg) :
    ProperlyAnswered (runOf ω aaf (.query m σ a)) r ↔ (r = true ↔ m.Accepts aaf.framework σ a) :=
  properlyAnswered_iff ω aaf (allowed_query aaf hσ)

theorem outputs_count {κ : CountTrack} (hκ : ω.IsTotal ∨ κ ≠ .pr)
    (hcount : {E | κ.semantics.Extension aaf.framework E}.ncard ≤ intMax) {out : String} :
    Outputs (runOf ω aaf (.count κ)) out ↔
      out = toString {E | κ.semantics.Extension aaf.framework E}.ncard ++ "\n" := by
  have hfits : ∀ κ', Problem.count (n := n) κ = .count κ' →
      {E | κ'.semantics.Extension aaf.framework E}.ncard ≤ intMax := by
    rintro _ ⟨⟩
    exact hcount
  have hsolved : ∀ w, Prog.Total (runOf ω aaf (.count κ)) (fun _ w' => ∃ out,
      (Problem.count κ).Solved aaf.framework aaf.ids2arguments out ∧
        w'.stdout = w.stdout ++ out) w := by
    intro w
    rcases hκ with hκ | hκ
    · exact total_taasSolve ⟨ω, hκ⟩ aaf _ hfits w
    · exact total_robust ω aaf (.count κ) hκ hfits w
  constructor
  · exact fun h => h.unique hsolved
  · rintro rfl w
    apply (hsolved w).mono
    rintro _ w' ⟨out, rfl, hw'⟩
    exact hw'

theorem prints_no_iff : Outputs (runOf ω aaf (.search .st)) "NO\n" ↔
    ∀ E, ¬ aaf.framework.Stable E := by
  have hrobust : (Problem.search .st : Problem n).Robust aaf.framework :=
    ⟨by decide, by decide, by decide⟩
  constructor
  · intro h
    obtain ⟨E, -, hline⟩ | ⟨-, hno, -⟩ := h.unique (total_robust ω aaf _ hrobust nofun)
    · exact absurd rfl hline.ne_no
    · exact hno
  · intro hno w
    apply (total_robust ω aaf _ hrobust nofun w).mono
    rintro _ w' ⟨out, ⟨E, hE, -⟩ | ⟨-, -, rfl⟩, hw'⟩
    · exact absurd hE (hno E)
    · exact hw'

end Runs

section Agreement
variable (ω ω' : SatOracle) (aaf : AAF n)

/-- The answers to queries about one argument, from runs with any two solvers that make no call that
is not allowed. An answer that follows from another one is given without such a call unless it is
one about stage semantics, for which the query must be allowed. -/
theorem answers_agree (a : Fin n) :
    (∀ {σ τ : Semantics}, σ.Within τ →
      ((Problem.query .dc τ a).task.Allowed aaf →
        ProperlyAnswered (runOf ω aaf (.query .dc σ a)) true →
          ProperlyAnswered (runOf ω' aaf (.query .dc τ a)) true) ∧
      ((Problem.query .ds σ a).task.Allowed aaf →
        ProperlyAnswered (runOf ω aaf (.query .ds τ a)) true →
          ProperlyAnswered (runOf ω' aaf (.query .ds σ a)) true)) ∧
    (∀ {σ : Semantics}, σ ≠ .st → (Problem.query .dc σ a).task.Allowed aaf →
      ProperlyAnswered (runOf ω aaf (.query .ds σ a)) true →
        ProperlyAnswered (runOf ω' aaf (.query .dc σ a)) true) ∧
    (∀ r, ProperlyAnswered (runOf ω aaf (.query .dc .co a)) r ↔
      ProperlyAnswered (runOf ω' aaf (.query .dc .pr a)) r) ∧
    (∀ m r, ProperlyAnswered (runOf ω aaf (.query .ds .co a)) r ↔
      ProperlyAnswered (runOf ω' aaf (.query m .gr a)) r) ∧
    (∀ r, ProperlyAnswered (runOf ω aaf (.query .ds .id a)) r ↔
      ProperlyAnswered (runOf ω' aaf (.query .dc .id a)) r) ∧
    (ProperlyAnswered (runOf ω aaf (.query .dc .id a)) true →
      ProperlyAnswered (runOf ω' aaf (.query .ds .pr a)) true) ∧
    (¬ Outputs (runOf ω aaf (.search .st)) "NO\n" → ∀ m r, ∀ σ, σ = .sst ∨ σ = .stg →
      (Problem.query m σ a).task.Allowed aaf →
        (ProperlyAnswered (runOf ω aaf (.query m σ a)) r ↔
          ProperlyAnswered (runOf ω' aaf (.query m .st a)) r)) := by
  have hco : Semantics.co ≠ .stg := by decide
  have hgr : Semantics.gr ≠ .stg := by decide
  have hpr : Semantics.pr ≠ .stg := by decide
  have hid : Semantics.id ≠ .stg := by decide
  have hst : Semantics.st ≠ .stg := by decide
  refine ⟨fun hwithin => ⟨fun hτ h => ?_, fun hσ h => ?_⟩, fun hσ hallowed h => ?_, fun r => ?_,
    fun m r => ?_, fun r => ?_, fun h => ?_, fun hno m r σ hσ hallowed => ?_⟩
  · apply (properlyAnswered_iff ω' aaf hτ).2
    exact iff_of_true rfl (hwithin.credulous (h.accepts.1 rfl))
  · apply (properlyAnswered_iff ω' aaf hσ).2
    exact iff_of_true rfl (hwithin.sceptical (h.accepts.1 rfl))
  · apply (properlyAnswered_iff ω' aaf hallowed).2
    exact iff_of_true rfl (Mode.dc_of_ds hσ (h.accepts.1 rfl))
  · rw [properlyAnswered_iff_of_ne ω aaf hco, properlyAnswered_iff_of_ne ω' aaf hpr,
      Mode.dc_co_iff_pr]
  · rw [properlyAnswered_iff_of_ne ω aaf hco, properlyAnswered_iff_of_ne ω' aaf hgr,
      Mode.ds_accepts_co_iff, Mode.accepts_gr_iff]
  · rw [properlyAnswered_iff_of_ne ω aaf hid, properlyAnswered_iff_of_ne ω' aaf hid,
      Mode.ds_id_iff_dc]
  · apply (properlyAnswered_iff_of_ne ω' aaf hpr).2
    exact iff_of_true rfl (Mode.ds_pr_of_dc_id (h.accepts.1 rfl))
  · rw [prints_no_iff, not_forall] at hno
    obtain ⟨S, hS⟩ := hno
    rw [properlyAnswered_iff ω aaf hallowed, properlyAnswered_iff_of_ne ω' aaf hst,
      Mode.accepts_iff_stable (not_not.1 hS) hσ m]

/-- EA-PR lists the arguments for which DS-PR is answered with YES. -/
theorem accepted_lists_answered (w : World) :
    Prog.Total (runOf ω aaf .accepted) (fun _ w' => ∃ l,
      Lists l {a | Answered (runOf ω' aaf (.query .ds .pr a)) true} ∧
        w'.stdout = w.stdout ++ ("[" ++ joinNames "," (l.map aaf.ids2arguments) ++ "]\n")) w := by
  apply (total_robust ω aaf .accepted trivial nofun w).mono
  rintro _ w' ⟨out, ⟨l, hl, rfl⟩, hw'⟩
  simp only [answered_yes_iff]
  exact ⟨l, hl, hw'⟩

/-- The counts: a stable extension is preferred, a preferred one complete, there is a preferred one,
and there is no stable one exactly if SE-ST says so. -/
theorem counts_agree (υ : TotalOracle) (h : {E | aaf.framework.Complete E}.ncard ≤ intMax) :
    ∃ st pr co : ℕ,
      Outputs (runOf ω aaf (.count .st)) (toString st ++ "\n") ∧
      Outputs (runOf υ.toSatOracle aaf (.count .pr)) (toString pr ++ "\n") ∧
      Outputs (runOf ω' aaf (.count .co)) (toString co ++ "\n") ∧ st ≤ pr ∧ pr ≤ co ∧ 0 < pr ∧
      (st = 0 ↔ Outputs (runOf ω' aaf (.search .st)) "NO\n") := by
  have hst : {E | aaf.framework.Stable E}.ncard ≤ {E | aaf.framework.Preferred E}.ncard :=
    Set.ncard_le_ncard (fun E hE => hE.semiStable.preferred) (Set.toFinite _)
  have hpr : {E | aaf.framework.Preferred E}.ncard ≤ {E | aaf.framework.Complete E}.ncard :=
    Set.ncard_le_ncard (fun E hE => Framework.Preferred.complete hE) (Set.toFinite _)
  refine ⟨{E | aaf.framework.Stable E}.ncard, {E | aaf.framework.Preferred E}.ncard,
    {E | aaf.framework.Complete E}.ncard, ?_, ?_, ?_, hst, hpr, ?_, ?_⟩
  · exact (outputs_count ω aaf (κ := .st) (.inr (by decide)) (hst.trans (hpr.trans h))).2 rfl
  · exact (outputs_count υ.toSatOracle aaf (κ := .pr) (.inl υ.total) (hpr.trans h)).2 rfl
  · exact (outputs_count ω' aaf (κ := .co) (.inr (by decide)) h).2 rfl
  · exact (Set.ncard_pos (Set.toFinite _)).2 Framework.exists_preferred
  · rw [prints_no_iff, Set.ncard_eq_zero (Set.toFinite _), Set.eq_empty_iff_forall_notMem]
    rfl

theorem counts_agree_twoRivals : ∃ st pr co : ℕ,
    Outputs (runOf exhaustive.toSatOracle twoRivals (.count .st)) (toString st ++ "\n") ∧
    Outputs (runOf exhaustive.toSatOracle twoRivals (.count .pr)) (toString pr ++ "\n") ∧
    Outputs (runOf exhaustive.toSatOracle twoRivals (.count .co)) (toString co ++ "\n") ∧
    st ≤ pr ∧ pr ≤ co ∧ 0 < pr ∧
    (st = 0 ↔ Outputs (runOf exhaustive.toSatOracle twoRivals (.search .st)) "NO\n") := by
  apply counts_agree exhaustive.toSatOracle exhaustive.toSatOracle twoRivals exhaustive
  have hcard : (Set.univ : Set (Set (Fin 2))).ncard = 4 := by
    rw [Set.ncard_univ, Nat.card_eq_fintype_card, Fintype.card_set, Fintype.card_fin]
    rfl
  have hmax : 4 ≤ intMax := by decide
  calc {E | twoRivals.framework.Complete E}.ncard
      ≤ (Set.univ : Set (Set (Fin 2))).ncard :=
        Set.ncard_le_ncard (Set.subset_univ {E | twoRivals.framework.Complete E}) Set.finite_univ
    _ = 4 := hcard
    _ ≤ intMax := hmax

/-- Neither the order nor the names of the arguments nor the order of the attacks matters for the
answers, as long as no call is made that is not allowed, and for the counts that are values of
`int`. -/
theorem renamed_agree {k : ℕ} {aaf : AAF n} {aaf' : AAF k}
    (e : aaf.framework.Renaming aaf'.framework) (υ υ' : TotalOracle) :
    (∀ m σ a r, (Problem.query m σ a).task.Allowed aaf →
      (Problem.query m σ (e.toEquiv a)).task.Allowed aaf' →
      (ProperlyAnswered (runOf ω aaf (.query m σ a)) r ↔
        ProperlyAnswered (runOf ω' aaf' (.query m σ (e.toEquiv a))) r)) ∧
    ∀ κ out, {E | κ.semantics.Extension aaf.framework E}.ncard ≤ intMax →
      (Outputs (runOf υ.toSatOracle aaf (.count κ)) out ↔
        Outputs (runOf υ'.toSatOracle aaf' (.count κ)) out) := by
  constructor
  · intro m σ a r h h'
    rw [properlyAnswered_iff _ _ h, properlyAnswered_iff _ _ h', e.accepts_iff]
  · intro κ out hle
    rw [outputs_count _ _ (.inl υ.total) hle,
      outputs_count _ _ (.inl υ'.total) (e.ncard_extension κ.semantics ▸ hle), e.ncard_extension]

end Agreement

/-- `fullcovered`: a loop that stops at an argument that is neither OUT nor IN. -/
def fullcovered (grounded : Labeling) (n : ℕ) : Bool :=
  (List.range n).all fun i => !(!grounded.labOut.get i && !grounded.labIn.get i)

section Coverage
variable (ω ω' : SatOracle) (aaf : AAF n)

theorem fullcovered_iff_total :
    fullcovered (computeGrounded aaf).1 n = true ↔ aaf.framework.GroundedTotal := by
  have hg := computeGrounded_represents aaf
  rw [fullcovered, List.all_eq_true]
  constructor
  · intro h a
    have ha := h a (List.mem_range.2 a.isLt)
    rw [Bool.not_eq_true', Bool.and_eq_false_iff, Bool.not_eq_false', Bool.not_eq_false',
      hg.in_iff, hg.out_iff] at ha
    exact ha.symm
  · intro h i hi
    have ha := (h ⟨i, List.mem_range.1 hi⟩).imp (hg.in_iff _).2 (hg.out_iff _).2
    rw [Bool.not_eq_true', Bool.and_eq_false_iff, Bool.not_eq_false', Bool.not_eq_false']
    exact ha.symm

/-- The grounded labeling covers all arguments exactly if it makes no difference in which semantics
and mode a query is asked. -/
theorem fullcovered_iff : fullcovered (computeGrounded aaf).1 n = true ↔
    ∀ a m m' σ σ' r, Answered (runOf ω aaf (.query m σ a)) r ↔
      Answered (runOf ω' aaf (.query m' σ' a)) r := by
  simp only [fullcovered_iff_total, answered_iff]
  constructor
  · intro h a m m' σ σ' r
    rw [Mode.accepts_iff_grounded h, Mode.accepts_iff_grounded h]
  · intro h
    apply Mode.groundedTotal_of_accepts
    intro m a
    have hyes := h a m .ds .st .gr true
    simpa only [true_iff, Mode.accepts_gr_iff] using hyes

end Coverage

end TaasFudge
