import TaasFudge.Taas.Grounded
import TaasFudge.Tasks.RangeGrowth

/-! # Correctness of the range tasks

The inner loop keeps a labelling that meets the query; its object describes the
labellings above the arguments kept labelled whose range is not yet covered. The
outer object never loses an extension that meets the query.
-/

namespace TaasFudge

open Dimacs

variable {n : ℕ}

section Sets
variable {inVars outVars : Fin n → ℤ} {τ : Assignment} {new : Fin n → Bool} {st : RangeState n}

theorem isLabelled_iff (hv : LabelVars inVars outVars) {i : Fin n} :
    isLabelled τ.model inVars outVars i = true ↔ i ∈ selected τ inVars ∪ selected τ outVars := by
  rw [isLabelled, Bool.or_eq_true, isIn, isIn, decide_eq_true_eq, decide_eq_true_eq,
    τ.value_pos_iff (hv.in_pos i), τ.value_pos_iff (hv.out_pos i)]
  rfl

theorem pairClause_ne (hv : LabelVars inVars outVars) {i : Fin n} {l : ℤ}
    (hl : l ∈ pairClause inVars outVars i) : l ≠ 0 := by
  simp only [pairClause, List.mem_cons, List.not_mem_nil, or_false] at hl
  rcases hl with rfl | rfl
  · exact hv.in_ne i
  · exact hv.out_ne i

theorem mem_grown_notUndec {m : PartialModel} {i : Fin n} :
    i ∈ (grown inVars outVars m new (List.finRange n) (st, [])).1.notUndec ↔
      i ∈ st.notUndec ∨ new i = true := by
  rw [grown, RaSet.mem_foldl_add]
  simp

theorem mem_grown_inArg (hv : LabelVars inVars outVars) {i : Fin n} :
    i ∈ (grown inVars outVars τ.model new (List.finRange n) (st, [])).1.inArg ↔
      i ∈ st.inArg ∨ i ∈ selected τ inVars := by
  rw [grown, RaSet.mem_foldl_add]
  simp only [List.mem_filter, List.mem_finRange, true_and, Bool.and_eq_true, isLabelled_iff hv]
  rw [isIn, decide_eq_true_eq, τ.value_pos_iff (hv.in_pos i), ← mem_selected]
  exact or_congr_right (and_iff_right_of_imp Or.inl)

/-- After a growth the object asks for the arguments kept labelled, and for one more than the
model has labelled. -/
theorem grown_describes (hv : LabelVars inVars outVars) {m : PartialModel} {T : Set (Fin n)}
    (hm : ∀ i, isLabelled m inVars outVars i = true ↔ i ∈ T)
    {R : Set (Fin n) × Set (Fin n) → Prop}
    (h : st.inner.Describes (labels inVars outVars) R) :
    (satAddClause (grown inVars outVars m new (List.finRange n) (st, [])).1.inner
      (grown inVars outVars m new (List.finRange n) (st, [])).2
      (grown inVars outVars m new (List.finRange n) (st, [])).2.length).Describes
      (labels inVars outVars) fun b => (R b ∧ ∀ i, new i = true → i ∈ b.1 ∪ b.2) ∧
        ¬ b.1 ∪ b.2 ⊆ T := by
  simp only [grown, List.nil_append]
  rw [satAddClause_eq, List.take_length]
  · refine (h.pushAll (P := fun b => ∀ i, new i = true → i ∈ b.1 ∪ b.2) fun υ => ?_).push
      (P := fun b => ¬ b.1 ∪ b.2 ⊆ T) fun υ => ?_
    · rw [List.forall_mem_map]
      simp [pairClause]
    · rw [Assignment.satisfies_flatMap, Set.not_subset]
      constructor
      · rintro ⟨i, hi, hυ⟩
        refine ⟨i, by simpa [pairClause] using hυ, fun hT => ?_⟩
        have hnot := List.of_mem_filter hi
        rw [(hm i).2 hT] at hnot
        exact absurd hnot (by decide)
      · rintro ⟨i, hi, hT⟩
        refine ⟨i, ?_, by simpa [pairClause] using hi⟩
        refine List.mem_filter.2 ⟨List.mem_finRange i, ?_⟩
        rw [Bool.not_eq_true']
        exact Bool.eq_false_iff.2 fun h => hT ((hm i).1 h)
  · intro l hl
    obtain ⟨i, -, hl⟩ := List.mem_flatMap.1 hl
    exact pairClause_ne hv hl

end Sets

section Shape
variable {γ : Type} (ω : Oracle) (task : RangeTask n) (aaf : AAF n) (grounded : Labeling)
  (arg : Fin n) (doPrint : Bool) (inVars outVars : Fin n → ℤ) (found : RaSet n → Prog World γ)
  (notFound : Prog World γ)

/-- A round of the inner loop that does `found` with an extension as sought. -/
def rangeInnerWith (solver : IpasirSolver) (st : RangeState n) :
    Prog World (LoopStep (RangeState n) (Option γ × IpasirSolver)) := do
  let inner ← satAssume st.inner (task.literal arg inVars)
  let (sat, inner) ← satSolve ω inner
  if sat = 20 then
    let (sat, _) ← satSolve ω inner
    if sat = 20 then
      let c ← found st.inArg
      pure (.exit (some c, solver))
    else
      let solver := (List.finRange n).foldl (fun (solver : IpasirSolver) (i : Fin n) =>
        if !st.notUndec.contains i then satAdd (satAdd solver (inVars i)) (outVars i)
        else solver) solver
      pure (.exit (none, satAdd solver 0))
  else
    let (st, clause) ← task.grow inVars outVars arg
      { st with inner := inner, inArg := st.inArg.reset }
    pure (.again { st with inner := satAddClause st.inner clause clause.length })

/-- A round of the outer loop that does `notFound` when there is no extension as sought. -/
def rangeOuterWith (solver : IpasirSolver) : Prog World (LoopStep IpasirSolver γ) := do
  let solver ← satAssume solver (task.literal arg inVars)
  let (sat, solver) ← satSolve ω solver
  if sat = 20 then
    let c ← notFound
    pure (.exit c)
  else
    let inner := (task.encode satInit inVars outVars aaf grounded).2
    let (st, clause) ← rangeStart inVars outVars solver
      ⟨inner, RaSet.initEmpty n, RaSet.initEmpty n⟩
    let st := { st with inner := satAddClause st.inner clause clause.length }
    let (result, solver) ← Prog.loop
      (rangeInnerWith ω task arg inVars outVars found solver) st
    match result with
    | some c => pure (.exit c)
    | none => pure (.again solver)

theorem rangeInner_eq : rangeInner ω task aaf arg doPrint inVars outVars =
    rangeInnerWith ω task arg inVars outVars (fun inArg => do
      report doPrint task.sought (printf (inArg.printI23 aaf))
      pure task.sought) := by
  funext solver st
  simp only [rangeInner, rangeInnerWith, bind_assoc, pure_bind]

theorem rangeOuter_eq : rangeOuter ω task aaf grounded arg doPrint inVars outVars =
    rangeOuterWith ω task aaf grounded arg inVars outVars
      (fun inArg => do
        report doPrint task.sought (printf (inArg.printI23 aaf))
        pure task.sought)
      (do
        report doPrint (!task.sought) (pure ())
        pure !task.sought) := by
  funext solver
  rw [rangeOuter, rangeOuterWith]
  apply bind_congr
  intro solver
  apply bind_congr
  rintro ⟨sat, solver⟩
  dsimp only
  split_ifs
  · simp only [bind_assoc, pure_bind]
  · apply bind_congr
    rintro ⟨st, clause⟩
    rw [rangeInner_eq]
    apply bind_congr
    rintro ⟨result, solver⟩
    cases result <;> rfl

end Shape

section Inner
variable {inVars outVars : Fin n → ℤ} {aaf : AAF n} {grounded : Labeling} {arg : Fin n}
  {doPrint : Bool} {task : RangeTask n} {L : Set (Fin n) → Set (Fin n) → Prop}
  {Ext : Set (Fin n) → Prop}

def RangeTask.Meets (task : RangeTask n) (arg : Fin n) (S : Set (Fin n)) : Prop :=
  arg ∈ S ↔ task.sought = true

theorem RangeTask.lit_literal (hv : LabelVars inVars outVars) (τ : Assignment) :
    (∀ l ∈ [task.literal arg inVars], τ.lit l = true) ↔
      task.Meets arg (labels inVars outVars τ).1 := by
  rw [List.forall_mem_singleton, RangeTask.literal, RangeTask.Meets, labels_fst]
  rcases task.sought
  · rw [if_neg (by decide), hv.lit_neg_in]
    simp
  · rw [if_pos rfl, ← mem_selected]
    simp

structure RangeTask.Correct (task : RangeTask n) (aaf : AAF n) (grounded : Labeling)
    (L : Set (Fin n) → Set (Fin n) → Prop) (Ext : Set (Fin n) → Prop) : Prop where
  encodes : ∀ {inVars outVars : Fin n → ℤ}, LabelVars inVars outVars → ∃ cs,
    Encodes grounded inVars outVars L (fun s => task.encode s inVars outVars aaf grounded) cs
  grows : ∀ {inVars outVars : Fin n → ℤ}, LabelVars inVars outVars → ∀ arg st w,
    st.inner.state = .sat → Prog.Total (task.grow inVars outVars arg st) (fun r w' =>
      r = grownBy inVars outVars arg st ∧ w'.stdout = w.stdout) w
  semantics : Framework.RangeSemantics aaf.framework L Ext
  of_total : aaf.framework.GroundedTotal → ∀ S, Ext S ↔ S = aaf.framework.grounded
  witness : task.sought = true → task.witnessAfterYes = true

/-- The text after an answer: an extension as sought if there is one, and otherwise the grounded
extension if it decides everything, or nothing. -/
def RangeText (task : RangeTask n) (aaf : AAF n) (arg : Fin n) (Ext : Set (Fin n) → Prop)
    (r : Bool) (text : String) : Prop :=
  if r = task.sought then GivesWitness aaf (fun E => Ext E ∧ task.Meets arg E) text
  else if r = true → task.witnessAfterYes = true then
    aaf.framework.GroundedTotal ∧ GivesWitness aaf Ext text ∨
      ¬ aaf.framework.GroundedTotal ∧ text = ""
  else text = ""

def RangePost (task : RangeTask n) (aaf : AAF n) (arg : Fin n) (Ext : Set (Fin n) → Prop)
    (doPrint : Bool) (w : World) (r : Bool) (w' : World) : Prop :=
  (r = task.sought ↔ ∃ E, Ext E ∧ task.Meets arg E) ∧
    Reported doPrint r (RangeText task aaf arg Ext r) w w'

/-- The invariant of the inner loop. The labelling `b₀` is the last one found. -/
structure RangeInv (task : RangeTask n) (arg : Fin n) (L : Set (Fin n) → Set (Fin n) → Prop)
    (inVars outVars : Fin n → ℤ) (first : Set (Fin n)) (st : RangeState n)
    (b₀ : Set (Fin n) × Set (Fin n)) (R : Set (Fin n) × Set (Fin n) → Prop) : Prop where
  describes : st.inner.Describes (labels inVars outVars) R
  labelling : L b₀.1 b₀.2
  meets : task.Meets arg b₀.1
  inArg_eq : st.inArg.toSet = b₀.1
  first_subset : first ⊆ st.notUndec.toSet
  notUndec_subset : st.notUndec.toSet ⊆ b₀.1 ∪ b₀.2
  sound : ∀ b, R b → L b.1 b.2 ∧ st.notUndec.toSet ⊆ b.1 ∪ b.2 ∧ ¬ b.1 ∪ b.2 ⊆ b₀.1 ∪ b₀.2
  upward : ∀ b b', R b → L b'.1 b'.2 → b.1 ∪ b.2 ⊆ b'.1 ∪ b'.2 → R b'
  complete : ∀ b, L b.1 b.2 → b₀.1 ∪ b₀.2 ⊆ b.1 ∪ b.2 → ¬ b.1 ∪ b.2 ⊆ b₀.1 ∪ b₀.2 → R b

/-- When nothing larger is left, the last labelling is a range-maximal one. -/
theorem RangeInv.ext (hsem : Framework.RangeSemantics aaf.framework L Ext) {first : Set (Fin n)}
    {st : RangeState n} {b₀ : Set (Fin n) × Set (Fin n)} {R : Set (Fin n) × Set (Fin n) → Prop}
    (h : RangeInv task arg L inVars outVars first st b₀ R) (hno : ∀ b, ¬ R b) :
    Ext st.inArg.toSet := by
  rw [h.inArg_eq]
  refine hsem.ext_of_max h.labelling fun T U hTU hsub => ?_
  by_contra hnot
  refine hno (T, U) (h.complete (T, U) hTU hsub fun hle => hnot ?_)
  exact hle.trans (hsem.subset_range h.labelling)

/-- When something larger is left, no extension as sought stays inside the labelled arguments. -/
theorem RangeInv.not_subset (hsem : Framework.RangeSemantics aaf.framework L Ext)
    {first : Set (Fin n)} {st : RangeState n} {b₀ b : Set (Fin n) × Set (Fin n)}
    {R : Set (Fin n) × Set (Fin n) → Prop}
    (h : RangeInv task arg L inVars outVars first st b₀ R) (hb : R b) {E : Set (Fin n)}
    (hE : Ext E) : ¬ aaf.framework.range E ⊆ st.notUndec.toSet := by
  intro hrange
  obtain ⟨hL, hsub, hnot⟩ := h.sound b hb
  exact hnot ((hsem.ext_max hE hL (hrange.trans hsub)).trans (hrange.trans h.notUndec_subset))

/-- A state reached by a growth with the labelling `b`: the arguments in `old` and those with
`new` are kept labelled. -/
structure GrownFrom (inVars outVars : Fin n → ℤ) (old : RaSet n) (st : RangeState n)
    (b : Set (Fin n) × Set (Fin n)) (R : Set (Fin n) × Set (Fin n) → Prop) (new : Fin n → Bool) :
    Prop where
  describes : st.inner.Describes (labels inVars outVars) fun b' =>
    (R b' ∧ ∀ i, new i = true → i ∈ b'.1 ∪ b'.2) ∧ ¬ b'.1 ∪ b'.2 ⊆ b.1 ∪ b.2
  notUndec : ∀ i, i ∈ st.notUndec ↔ i ∈ old ∨ new i = true
  inArg : st.inArg.toSet = b.1

def closeGrowth (p : RangeState n × List ℤ) : RangeState n :=
  { p.1 with inner := satAddClause p.1.inner p.2 p.2.length }

theorem grownFrom_grown (hv : LabelVars inVars outVars) (τ : Assignment) (new : Fin n → Bool)
    (st : RangeState n) {R : Set (Fin n) × Set (Fin n) → Prop}
    (h : st.inner.Describes (labels inVars outVars) R) (hin : ∀ i, i ∉ st.inArg) :
    GrownFrom inVars outVars st.notUndec
      (closeGrowth (grown inVars outVars τ.model new (List.finRange n) (st, [])))
      (labels inVars outVars τ) R new where
  describes := grown_describes hv (fun _ => isLabelled_iff hv) h
  notUndec i := by
    dsimp only [closeGrowth]
    exact mem_grown_notUndec
  inArg := by
    ext i
    dsimp only [closeGrowth]
    rw [RaSet.mem_toSet, mem_grown_inArg hv]
    exact or_iff_right (hin i)

/-- A model of the inner object under the query's assumption is the next labelling. -/
theorem RangeInv.step {first : Set (Fin n)} {st st' : RangeState n}
    {b₀ b₁ : Set (Fin n) × Set (Fin n)} {R : Set (Fin n) × Set (Fin n) → Prop}
    {new : Fin n → Bool} (h : RangeInv task arg L inVars outVars first st b₀ R)
    (hb₁ : R b₁) (hmeets : task.Meets arg b₁.1)
    (hg : GrownFrom inVars outVars st.notUndec st' b₁ R new)
    (hnew : ∀ i, new i = true → i ∈ b₁.1 ∪ b₁.2) :
    (∃ R', RangeInv task arg L inVars outVars first st' b₁ R') ∧
      st'.inner.remaining ((fun b => b.1 ∪ b.2) ∘ labels inVars outVars) <
        st.inner.remaining ((fun b => b.1 ∪ b.2) ∘ labels inVars outVars) := by
  obtain ⟨hL, hsub, -⟩ := h.sound b₁ hb₁
  have hnotUndec : ∀ {S : Set (Fin n)}, st.notUndec.toSet ⊆ S → (∀ i, new i = true → i ∈ S) →
      st'.notUndec.toSet ⊆ S := by
    intro S hold hS i hi
    exact ((hg.notUndec i).1 hi).elim (fun h => hold h) (hS i)
  refine ⟨⟨_, hg.describes, hL, hmeets, hg.inArg, ?_, hnotUndec hsub hnew, ?_, ?_, ?_⟩, ?_⟩
  · exact fun i hi => (hg.notUndec i).2 (.inl (h.first_subset hi))
  · rintro b ⟨⟨hb, hbnew⟩, hnot⟩
    exact ⟨(h.sound b hb).1, hnotUndec (h.sound b hb).2.1 hbnew, hnot⟩
  · rintro b b' ⟨⟨hb, hbnew⟩, hnot⟩ hL' hle
    exact ⟨⟨h.upward b b' hb hL' hle, fun i hi => hle (hbnew i hi)⟩, fun hb' => hnot (hle.trans hb')⟩
  · intro b hLb hle hnot
    exact ⟨⟨h.upward b₁ b hb₁ hLb hle, fun i hi => hle (hnew i hi)⟩, hnot⟩
  · exact h.describes.remaining_lt hg.describes (fun b hb => hb.1.1) hb₁
      fun b hb heq => hb.2 heq.subset

theorem RangeInv.start {old : RaSet n} {st' : RangeState n} {b₁ : Set (Fin n) × Set (Fin n)}
    {new : Fin n → Bool} (hL : L b₁.1 b₁.2) (hmeets : task.Meets arg b₁.1)
    (hg : GrownFrom inVars outVars old st' b₁ (fun b => L b.1 b.2) new)
    (hempty : ∀ i, i ∉ old) (hnew : ∀ i, new i = true ↔ i ∈ b₁.1 ∪ b₁.2) :
    ∃ R, RangeInv task arg L inVars outVars (b₁.1 ∪ b₁.2) st' b₁ R := by
  have hmem : ∀ i, i ∈ st'.notUndec ↔ i ∈ b₁.1 ∪ b₁.2 := fun i => by
    rw [hg.notUndec, hnew, or_iff_right (hempty i)]
  refine ⟨_, hg.describes, hL, hmeets, hg.inArg, fun i hi => (hmem i).2 hi,
    fun i hi => (hmem i).1 hi, ?_, ?_, ?_⟩
  · rintro b ⟨⟨hb, hbnew⟩, hnot⟩
    exact ⟨hb, fun i hi => hbnew i ((hnew i).2 ((hmem i).1 hi)), hnot⟩
  · rintro b b' ⟨⟨-, hbnew⟩, hnot⟩ hL' hle
    exact ⟨⟨hL', fun i hi => hle (hbnew i hi)⟩, fun hb' => hnot (hle.trans hb')⟩
  · intro b hLb hle hnot
    exact ⟨⟨hLb, fun i hi => hle ((hnew i).1 hi)⟩, hnot⟩

/-- The clause that makes the outer object leave the labelled arguments. -/
theorem satisfies_leave {τ : Assignment} (s : RaSet n) :
    τ.Satisfies (((List.finRange n).filter fun i : Fin n => !s.contains i).flatMap
      (pairClause inVars outVars)) ↔ ¬ selected τ inVars ∪ selected τ outVars ⊆ s.toSet := by
  rw [Assignment.satisfies_flatMap, Set.not_subset]
  simp [pairClause, and_comm]

theorem foldl_leave (hv : LabelVars inVars outVars) (solver : IpasirSolver) (s : RaSet n) :
    satAdd ((List.finRange n).foldl (fun (solver : IpasirSolver) (i : Fin n) =>
      if !s.contains i then satAdd (satAdd solver (inVars i)) (outVars i) else solver) solver) 0 =
      solver.push (((List.finRange n).filter fun i : Fin n => !s.contains i).flatMap
        (pairClause inVars outVars)) := by
  rw [← satAdd_zero_foldl, List.foldl_flatMap, List.foldl_filter]
  · rfl
  · intro l hl
    obtain ⟨i, -, hl⟩ := List.mem_flatMap.1 hl
    exact pairClause_ne hv hl

/-- How the inner loop ends: with an outcome as wanted, or with labelled arguments that no extension
stays inside. -/
def InnerPost {γ : Type} (aaf : AAF n) (Ext : Set (Fin n) → Prop) (inVars outVars : Fin n → ℤ)
    (solver : IpasirSolver) (first : Set (Fin n)) (Q : γ → World → Prop) (w : World) :
    Option γ × IpasirSolver → World → Prop
  | (some c, _), w' => Q c w'
  | (none, solver'), w' => (∃ N : RaSet n, first ⊆ N.toSet ∧
      (∀ E, Ext E → ¬ aaf.framework.range E ⊆ N.toSet) ∧
      solver' = solver.push (((List.finRange n).filter fun i : Fin n => !N.contains i).flatMap
        (pairClause inVars outVars))) ∧ w'.stdout = w.stdout

/-- The answer to the query that was sought: the set that was found is its witness. -/
theorem total_report_found {s : RaSet n} (hext : Ext s.toSet) (hmeets : task.Meets arg s.toSet)
    {w₀ w : World} (hw : w.stdout = w₀.stdout) :
    Prog.Total (do
      report doPrint task.sought (printf (s.printI23 aaf))
      pure task.sought) (RangePost task aaf arg Ext doPrint w₀) w := by
  apply Prog.Total.bind
  apply (total_report (P := RangeText task aaf arg Ext task.sought)
    fun w' => Prog.total_atomic.2 ⟨_, ?_, rfl⟩).mono
  · intro _ w₁ hw₁
    exact Prog.total_pure.2 ⟨iff_of_true rfl ⟨_, hext, hmeets⟩, hw₁.of_eq hw⟩
  · rw [RangeText, if_pos rfl]
    exact ⟨_, ⟨hext, hmeets⟩, s.printI23_witness aaf rfl⟩

theorem rangeText_of_ne {r : Bool} (hr : r ≠ task.sought)
    (h : ¬ aaf.framework.GroundedTotal ∨ ¬ (r = true → task.witnessAfterYes = true)) :
    RangeText task aaf arg Ext r "" := by
  rw [RangeText, if_neg hr]
  split_ifs with hyes
  · exact .inr ⟨h.resolve_right (not_not_intro hyes), rfl⟩
  · rfl

theorem total_report_notFound (hopen : ¬ aaf.framework.GroundedTotal)
    (hno : ∀ E, Ext E → ¬ task.Meets arg E) {w₀ w : World} (hw : w.stdout = w₀.stdout) :
    Prog.Total (do
      report doPrint (!task.sought) (pure ())
      pure !task.sought) (RangePost task aaf arg Ext doPrint w₀) w := by
  have hne : (!task.sought) ≠ task.sought := by cases task.sought <;> decide
  apply Prog.Total.bind
  apply (total_report_pure (rangeText_of_ne hne (.inl hopen))).mono
  intro _ w₁ hw₁
  refine Prog.total_pure.2 ⟨iff_of_false hne ?_, hw₁.of_eq hw⟩
  rintro ⟨E, hE, hmeets⟩
  exact hno E hE hmeets

theorem total_rangeInnerWith (ω : TotalOracle) (hv : LabelVars inVars outVars)
    (hc : task.Correct aaf grounded L Ext) {γ : Type} {found : RaSet n → Prog World γ}
    {Q : γ → World → Prop} {w₀ : World} (hfound : ∀ (s : RaSet n) w, Ext s.toSet →
      task.Meets arg s.toSet → w.stdout = w₀.stdout → Prog.Total (found s) Q w)
    {solver : IpasirSolver} {first : Set (Fin n)} {st : RangeState n}
    {b₀ : Set (Fin n) × Set (Fin n)} {R : Set (Fin n) × Set (Fin n) → Prop} {w : World}
    (h : RangeInv task arg L inVars outVars first st b₀ R) (hw : w.stdout = w₀.stdout) :
    Prog.Total (rangeInnerWith ω.answer task arg inVars outVars found solver st) (LoopStep.post
      (fun st' w' => ((∃ b R', RangeInv task arg L inVars outVars first st' b R') ∧
          w'.stdout = w₀.stdout) ∧
        st'.inner.remaining ((fun b => b.1 ∪ b.2) ∘ labels inVars outVars) <
          st.inner.remaining ((fun b => b.1 ∪ b.2) ∘ labels inVars outVars))
      (InnerPost aaf Ext inVars outVars solver first Q w₀)) w := by
  rw [rangeInnerWith, satAssume_of_closed h.describes.closed, pure_bind]
  refine Prog.Total.bind (h.describes.total_satSolve ω [task.literal arg inVars]
    (A := fun b => task.Meets arg b.1) (task.lit_literal hv) ?_ ?_)
  · -- the labelling grows
    intro τ w₁ hτ hmeets hw₁
    dsimp only
    rw [if_neg (by decide)]
    refine Prog.Total.bind ((hc.grows hv arg _ w₁ rfl).mono ?_)
    rintro _ w₂ ⟨rfl, hw₂⟩
    have hgrown := grownFrom_grown hv τ
      (fun i => isLabelled τ.model inVars outVars i &&
        (!st.notUndec.contains i && decide (arg ≠ i)))
      ⟨st.inner.satisfied τ.model, st.notUndec, st.inArg.reset⟩
      (h.describes.satisfied τ.model) (fun i => RaSet.mem_reset)
    obtain ⟨⟨R', hinv⟩, hlt⟩ := h.step hτ hmeets hgrown fun i hi =>
      (isLabelled_iff hv).1 (Bool.and_eq_true_iff.1 hi).1
    exact Prog.total_pure.2 ⟨⟨⟨_, R', hinv⟩, by rw [hw₂, hw₁, hw]⟩, hlt⟩
  · intro w₁ hno hw₁
    dsimp only
    rw [if_pos rfl]
    refine Prog.Total.bind ((h.describes.refuted.total_satSolve ω [] (A := fun _ => True)
      (fun τ => by simp)) ?_ ?_)
    · -- a larger range exists, without the query being met
      intro υ w₂ hυ _ hw₂
      dsimp only
      rw [if_neg (by decide), foldl_leave hv, Prog.total_pure]
      exact ⟨⟨st.notUndec, h.first_subset, fun E hE => h.not_subset hc.semantics hυ hE, rfl⟩,
        by rw [hw₂, hw₁, hw]⟩
    · intro w₂ hnone hw₂
      dsimp only
      rw [if_pos rfl]
      have hext := h.ext hc.semantics fun b hb => hnone b hb trivial
      have hmeets : task.Meets arg st.inArg.toSet := by
        rw [h.inArg_eq]
        exact h.meets
      apply Prog.Total.bind
      apply (hfound st.inArg w₂ hext hmeets ((hw₂.trans hw₁).trans hw)).mono
      exact fun c w₃ hc => Prog.total_pure.2 hc

end Inner

section Outer
variable {inVars outVars : Fin n → ℤ} {aaf : AAF n} {grounded : Labeling} {arg : Fin n}
  {doPrint : Bool} {task : RangeTask n} {L : Set (Fin n) → Set (Fin n) → Prop}
  {Ext : Set (Fin n) → Prop}

/-- The outer object describes labellings, among them every extension as sought. -/
structure OuterInv (task : RangeTask n) (aaf : AAF n) (arg : Fin n)
    (L : Set (Fin n) → Set (Fin n) → Prop) (Ext : Set (Fin n) → Prop)
    (inVars outVars : Fin n → ℤ) (solver : IpasirSolver)
    (R : Set (Fin n) × Set (Fin n) → Prop) : Prop where
  describes : solver.Describes (labels inVars outVars) R
  sound : ∀ b, R b → L b.1 b.2
  complete : ∀ E, Ext E → task.Meets arg E → R (E, aaf.framework.attackedBy E)

theorem total_rangeOuterWith (ω : TotalOracle) (hv : LabelVars inVars outVars)
    (hc : task.Correct aaf grounded L Ext) {γ : Type} {found : RaSet n → Prog World γ}
    {notFound : Prog World γ} {Q : γ → World → Prop} {w₀ : World}
    (hfound : ∀ (s : RaSet n) w, Ext s.toSet → task.Meets arg s.toSet → w.stdout = w₀.stdout →
      Prog.Total (found s) Q w)
    (hnot : ∀ w, (∀ E, Ext E → ¬ task.Meets arg E) → w.stdout = w₀.stdout →
      Prog.Total notFound Q w)
    {solver : IpasirSolver} {R : Set (Fin n) × Set (Fin n) → Prop} {w : World}
    (h : OuterInv task aaf arg L Ext inVars outVars solver R) (hw : w.stdout = w₀.stdout) :
    Prog.Total (rangeOuterWith ω.answer task aaf grounded arg inVars outVars found notFound solver)
      (LoopStep.post
        (fun solver' w' => ((∃ R', OuterInv task aaf arg L Ext inVars outVars solver' R') ∧
            w'.stdout = w₀.stdout) ∧
          solver'.remaining ((fun b => b.1 ∪ b.2) ∘ labels inVars outVars) <
            solver.remaining ((fun b => b.1 ∪ b.2) ∘ labels inVars outVars))
        Q) w := by
  rw [rangeOuterWith, satAssume_of_closed h.describes.closed, pure_bind]
  refine Prog.Total.bind (h.describes.total_satSolve ω [task.literal arg inVars]
    (A := fun b => task.Meets arg b.1) (task.lit_literal hv) ?_ ?_)
  · intro τ w₁ hτ hmeets hw₁
    dsimp only
    rw [if_neg (by decide), rangeStart_of_sat hv rfl, pure_bind]
    obtain ⟨cs, henc⟩ := hc.encodes hv
    have hgrown := grownFrom_grown hv τ (isLabelled τ.model inVars outVars)
      ⟨(task.encode satInit inVars outVars aaf grounded).2, RaSet.initEmpty n,
        RaSet.initEmpty n⟩ (henc.describes hv) (fun i => RaSet.mem_initEmpty)
    obtain ⟨R₁, hstart⟩ := RangeInv.start (h.sound _ hτ) hmeets hgrown
      (fun i => RaSet.mem_initEmpty) fun i => isLabelled_iff hv
    refine Prog.Total.bind ((Prog.Total.loop
      (fun st w' => (∃ b R', RangeInv task arg L inVars outVars _ st b R') ∧
        w'.stdout = w₀.stdout)
      (fun st => st.inner.remaining ((fun b => b.1 ∪ b.2) ∘ labels inVars outVars))
      (fun st w' ⟨⟨b, R', hinv⟩, hw'⟩ => total_rangeInnerWith ω hv hc hfound hinv hw')
      ⟨⟨_, R₁, hstart⟩, by rw [hw₁, hw]⟩).mono ?_)
    rintro ⟨_ | c, solver'⟩ w₂ hpost
    · obtain ⟨⟨N, hfirst, hN, rfl⟩, hw₂⟩ := hpost
      dsimp only
      rw [Prog.total_pure]
      have hnext := (h.describes.satisfied τ.model).push
        (P := fun b => ¬ b.1 ∪ b.2 ⊆ N.toSet) fun υ => satisfies_leave N
      refine ⟨⟨⟨_, hnext, fun b hb => h.sound b hb.1, fun E hE hEm => ?_⟩, hw₂⟩, ?_⟩
      · exact ⟨h.complete E hE hEm, hN E hE⟩
      · refine h.describes.remaining_lt hnext (fun b hb => hb.1) hτ fun b hb heq => hb.2 ?_
        exact heq.subset.trans hfirst
    · exact Prog.total_pure.2 hpost
  · intro w₁ hno hw₁
    dsimp only
    rw [if_pos rfl]
    apply Prog.Total.bind
    apply (hnot w₁ (fun E hE hEm => hno _ (h.complete E hE hEm) hEm) (hw₁.trans hw)).mono
    exact fun c w₂ hc => Prog.total_pure.2 hc

/-- An object with the clauses of the encoding comes to one of the two outcomes. -/
theorem total_rangeLoopWith (ω : TotalOracle) (hv : LabelVars inVars outVars)
    (hc : task.Correct aaf grounded L Ext) {γ : Type} {found : RaSet n → Prog World γ}
    {notFound : Prog World γ} {Q : γ → World → Prop} {w : World}
    (hfound : ∀ (s : RaSet n) w', Ext s.toSet → task.Meets arg s.toSet → w'.stdout = w.stdout →
      Prog.Total (found s) Q w')
    (hnot : ∀ w', (∀ E, Ext E → ¬ task.Meets arg E) → w'.stdout = w.stdout →
      Prog.Total notFound Q w')
    {solver : IpasirSolver} (h : solver.Describes (labels inVars outVars) fun b => L b.1 b.2) :
    Prog.Total (Prog.loop
      (rangeOuterWith ω.answer task aaf grounded arg inVars outVars found notFound) solver) Q w := by
  apply Prog.Total.loop
    (fun solver w' => (∃ R, OuterInv task aaf arg L Ext inVars outVars solver R) ∧
      w'.stdout = w.stdout)
    (fun solver => solver.remaining ((fun b => b.1 ∪ b.2) ∘ labels inVars outVars))
  · rintro solver w' ⟨⟨R, hR⟩, hw'⟩
    exact total_rangeOuterWith ω hv hc hfound hnot hR hw'
  · exact ⟨⟨_, h, fun b hb => hb, fun E hE _ => hc.semantics.labelling_of_ext hE⟩, rfl⟩

theorem exists_ext_of_total (hc : task.Correct aaf grounded L Ext)
    (h : aaf.framework.GroundedTotal) {r : Bool} (hr : arg ∈ aaf.framework.grounded ↔ r = true) :
    r = task.sought ↔ ∃ E, Ext E ∧ task.Meets arg E := by
  simp only [hc.of_total h, exists_eq_left, RangeTask.Meets, hr]
  exact Bool.eq_iff_iff

theorem rangeText_grounded (hc : task.Correct aaf grounded L Ext) (hg : Grounds aaf grounded)
    (h : aaf.framework.GroundedTotal) {r : Bool} (hr : arg ∈ aaf.framework.grounded ↔ r = true)
    (hyes : r = true → task.witnessAfterYes = true) :
    RangeText task aaf arg Ext r (grounded.printI23 aaf ++ "\n") := by
  have hext := (hc.of_total h _).2 rfl
  have hline := hg.printI23_witness aaf fun i hi ho =>
    Framework.grounded_complete.notMem_of_grounded_attacks ho hi
  rw [RangeText]
  split_ifs with hs
  · exact ⟨_, ⟨hext, hr.trans (by rw [hs])⟩, hline⟩
  · exact .inl ⟨h, _, hext, hline⟩

/-- The range query decides whether an extension as sought exists, and gives one. -/
theorem total_rangeQuery (ω : TotalOracle) (hc : task.Correct aaf grounded L Ext)
    (hg : Grounds aaf grounded) (w : World) :
    Prog.Total (rangeQuery ω.answer task aaf grounded arg doPrint)
      (RangePost task aaf arg Ext doPrint w) w := by
  have hv := labelVars_numberPairs n Int.one_pos
  rcases hnp : numberPairs n 1 with ⟨inVars, outVars, idx⟩
  simp only [hnp] at hv
  obtain ⟨cs, henc⟩ := hc.encodes hv
  have hdesc := henc.describes hv
  have heq := henc.eq satInit
  rw [heq] at hdesc
  simp only [rangeQuery, hnp, heq]
  split_ifs with hall hin hwit
  · have htotal := (allGrounded_iff hg).1 hall
    have hr : arg ∈ aaf.framework.grounded ↔ true = true := iff_of_true ((hg.in_iff arg).1 hin) rfl
    refine Prog.Total.bind ((total_report fun w' => Prog.total_atomic.2
      ⟨_, rangeText_grounded hc hg htotal hr fun _ => hwit, rfl⟩).mono fun _ w₁ hw₁ => ?_)
    exact Prog.total_pure.2 ⟨exists_ext_of_total hc htotal hr, hw₁⟩
  · have htotal := (allGrounded_iff hg).1 hall
    have hr : arg ∈ aaf.framework.grounded ↔ true = true := iff_of_true ((hg.in_iff arg).1 hin) rfl
    have hne : true ≠ task.sought := fun h => hwit (hc.witness h.symm)
    have htext : RangeText task aaf arg Ext true "" :=
      rangeText_of_ne hne (.inr fun h => hwit (h rfl))
    refine Prog.Total.bind ((total_report_pure htext).mono fun _ w₁ hw₁ => ?_)
    exact Prog.total_pure.2 ⟨exists_ext_of_total hc htotal hr, hw₁⟩
  · have htotal := (allGrounded_iff hg).1 hall
    have hr : arg ∈ aaf.framework.grounded ↔ false = true :=
      iff_of_false (fun h => hin ((hg.in_iff arg).2 h)) (by decide)
    refine Prog.Total.bind ((total_report fun w' => Prog.total_atomic.2
      ⟨_, rangeText_grounded hc hg htotal hr nofun, rfl⟩).mono fun _ w₁ hw₁ => ?_)
    exact Prog.total_pure.2 ⟨exists_ext_of_total hc htotal hr, hw₁⟩
  · have hopen : ¬ aaf.framework.GroundedTotal := fun h => hall ((allGrounded_iff hg).2 h)
    rw [rangeOuter_eq]
    apply total_rangeLoopWith ω hv hc _ _ hdesc
    · exact fun s w' hext hmeets hw' => total_report_found hext hmeets hw'
    · exact fun w' hno hw' => total_report_notFound hopen hno hw'

end Outer

section Tasks
variable {aaf : AAF n} {grounded : Labeling} {arg : Fin n} {doPrint : Bool} {task : RangeTask n}
  {Ext : Set (Fin n) → Prop} {w w' : World} {r : Bool}

/-- The outcome of a task that seeks an extension with the argument. -/
theorem RangePost.credulous (hs : task.sought = true)
    (h : RangePost task aaf arg Ext doPrint w r w') :
    (r = true ↔ ∃ E, Ext E ∧ arg ∈ E) ∧ (r = true → doPrint = true → ∃ E line,
      Ext E ∧ arg ∈ E ∧ WitnessLine aaf E line ∧ w'.stdout = w.stdout ++ ("YES\n" ++ line)) := by
  obtain ⟨hr, htext⟩ := h
  simp only [RangeTask.Meets, hs, iff_true] at hr
  refine ⟨hr, ?_⟩
  rintro rfl rfl
  obtain ⟨text, ht, hw⟩ := htext
  rw [RangeText, if_pos hs.symm] at ht
  obtain ⟨E, ⟨hE, hm⟩, hline⟩ := ht
  exact ⟨E, text, hE, hm.2 hs, hline, hw⟩

/-- The outcome of a task that seeks an extension without the argument. -/
theorem RangePost.sceptical (hs : task.sought = false)
    (h : RangePost task aaf arg Ext doPrint w r w') :
    (r = true ↔ ∀ E, Ext E → arg ∈ E) ∧ (r = false → doPrint = true → ∃ E line,
      Ext E ∧ arg ∉ E ∧ WitnessLine aaf E line ∧ w'.stdout = w.stdout ++ ("NO\n" ++ line)) := by
  obtain ⟨hr, htext⟩ := h
  simp only [RangeTask.Meets, hs, Bool.false_eq_true, iff_false] at hr
  refine ⟨?_, ?_⟩
  · rw [← Bool.not_eq_false, hr]
    simp only [not_exists, not_and, not_not]
  · rintro rfl rfl
    obtain ⟨text, ht, hw⟩ := htext
    rw [RangeText, if_pos hs.symm] at ht
    obtain ⟨E, ⟨hE, hm⟩, hline⟩ := ht
    exact ⟨E, text, hE, fun hmem => by simpa [hs] using hm.1 hmem, hline, hw⟩

theorem dcsst_correct (hg : Grounds aaf grounded) : (dcsst n).Correct aaf grounded
    aaf.framework.AdmissibleLabelling aaf.framework.SemiStable where
  encodes hv := ⟨_, addAdmTestClauses_encodes hv hg⟩
  grows hv _ _ w hst := total_growBuffered hv hst w
  semantics := Framework.rangeSemantics_semiStable
  of_total h _ := h.semiStable_iff
  witness _ := rfl

theorem dssst_correct (hg : Grounds aaf grounded) : (dssst n).Correct aaf grounded
    aaf.framework.AdmissibleLabelling aaf.framework.SemiStable where
  encodes hv := ⟨_, addAdmTestClauses_encodes hv hg⟩
  grows hv _ _ w hst := total_growBuffered hv hst w
  semantics := Framework.rangeSemantics_semiStable
  of_total h _ := h.semiStable_iff
  witness := nofun

theorem dcstg_correct : (dcstg n).Correct aaf grounded
    aaf.framework.ConflictFreeLabelling aaf.framework.Stage where
  encodes hv := ⟨_, addCfTestClauses_encodes hv⟩
  grows hv arg st w _ := total_growInPlace hv arg st w
  semantics := Framework.rangeSemantics_stage
  of_total h _ := h.stage_iff
  witness _ := rfl

theorem dsstg_correct : (dsstg n).Correct aaf grounded
    aaf.framework.ConflictFreeLabelling aaf.framework.Stage where
  encodes hv := ⟨_, addCfTestClauses_encodes hv⟩
  grows hv arg st w _ := total_growInPlace hv arg st w
  semantics := Framework.rangeSemantics_stage
  of_total h _ := h.stage_iff
  witness := nofun

end Tasks

section Decisions
variable (ω : TotalOracle) (aaf : AAF n) (arg : Fin n) (doPrint : Bool) (w : World)

/-- DS-SST decides membership in every semi-stable extension; a NO comes with one that does not
contain the argument. -/
theorem solveDssst_decides :
    Prog.Total (solveDssst ω.answer aaf (computeGrounded aaf).1 arg doPrint) (fun r w' =>
      (r = true ↔ ∀ E, aaf.framework.SemiStable E → arg ∈ E) ∧
      (r = false → doPrint = true → ∃ E line, aaf.framework.SemiStable E ∧ arg ∉ E ∧
        WitnessLine aaf E line ∧ w'.stdout = w.stdout ++ ("NO\n" ++ line))) w :=
  (total_rangeQuery ω (dssst_correct (computeGrounded_represents aaf))
    (computeGrounded_represents aaf) w).mono fun _ _ => RangePost.sceptical rfl

/-- DC-SST decides membership in some semi-stable extension; a YES comes with one that contains
the argument. -/
theorem solveDcsst_decides :
    Prog.Total (solveDcsst ω.answer aaf (computeGrounded aaf).1 arg doPrint) (fun r w' =>
      (r = true ↔ ∃ E, aaf.framework.SemiStable E ∧ arg ∈ E) ∧
      (r = true → doPrint = true → ∃ E line, aaf.framework.SemiStable E ∧ arg ∈ E ∧
        WitnessLine aaf E line ∧ w'.stdout = w.stdout ++ ("YES\n" ++ line))) w :=
  (total_rangeQuery ω (dcsst_correct (computeGrounded_represents aaf))
    (computeGrounded_represents aaf) w).mono fun _ _ => RangePost.credulous rfl

/-- DS-STG decides membership in every stage extension; a NO comes with one that does not
contain the argument. -/
theorem solveDsstg_decides :
    Prog.Total (solveDsstg ω.answer aaf (computeGrounded aaf).1 arg doPrint) (fun r w' =>
      (r = true ↔ ∀ E, aaf.framework.Stage E → arg ∈ E) ∧
      (r = false → doPrint = true → ∃ E line, aaf.framework.Stage E ∧ arg ∉ E ∧
        WitnessLine aaf E line ∧ w'.stdout = w.stdout ++ ("NO\n" ++ line))) w :=
  (total_rangeQuery ω dsstg_correct (computeGrounded_represents aaf) w).mono
    fun _ _ => RangePost.sceptical rfl

/-- DC-STG decides membership in some stage extension; a YES comes with one that contains the
argument. -/
theorem solveDcstg_decides :
    Prog.Total (solveDcstg ω.answer aaf (computeGrounded aaf).1 arg doPrint) (fun r w' =>
      (r = true ↔ ∃ E, aaf.framework.Stage E ∧ arg ∈ E) ∧
      (r = true → doPrint = true → ∃ E line, aaf.framework.Stage E ∧ arg ∈ E ∧
        WitnessLine aaf E line ∧ w'.stdout = w.stdout ++ ("YES\n" ++ line))) w :=
  (total_rangeQuery ω dcstg_correct (computeGrounded_represents aaf) w).mono
    fun _ _ => RangePost.credulous rfl

end Decisions

end TaasFudge
