import TaasFudge.Taas.Grounded
import TaasFudge.Tasks.Direct

/-! # SE-ST, DC-ST and DS-ST

Stable extensions are the models of their encoding. DS-ST has four exits; one of
them reports the model of the first, unconstrained search.
-/

namespace TaasFudge

open Dimacs

variable {n : ℕ}

section Encoding
variable {inVars : Fin n → ℤ} {aaf : AAF n} {grounded : Labeling} {solver : IpasirSolver}
  {τ : Assignment}

/-- The clauses for one argument; an unattacked one is decided by the grounded labeling. -/
def stbClauses (inVars : Fin n → ℤ) (aaf : AAF n) (grounded : Labeling) (i : Fin n) :
    List Clause :=
  (if grounded.labIn.get i then [[inVars i]]
    else if grounded.labOut.get i then [[-inVars i]] else []) ++
  ((aaf.parents i).map (fun j => [-inVars i, -inVars j]) ++
    if (aaf.parents i).isEmpty then [] else [inVars i :: (aaf.parents i).map inVars])

/-- The loop over the parents, which also clears a flag. -/
theorem foldl_stbParents {f g h : Fin n → ℤ} (hf : ∀ j, f j ≠ 0) (hg : ∀ j, g j ≠ 0)
    (xs : List (Fin n)) (s : IpasirSolver) (c : List ℤ) (b : Bool) :
    xs.foldl (fun (p : IpasirSolver × List ℤ × Bool) j =>
      (satAddClause2 p.1 (f j) (g j), p.2.1 ++ [h j], false)) (s, c, b) =
      (s.pushAll (xs.map fun j => [f j, g j]), c ++ xs.map h, b && xs.isEmpty) := by
  induction xs generalizing s c b with
  | nil => simp
  | cons x xs ih => simp [ih, satAddClause2_eq (hf x) (hg x)]

theorem addStbTestClauses_eq (hpos : ∀ i, 0 < inVars i) :
    addStbTestClauses solver inVars aaf grounded =
      solver.pushAll ((List.finRange n).flatMap (stbClauses inVars aaf grounded)) := by
  have hne : ∀ i, inVars i ≠ 0 := fun i => (hpos i).ne'
  have hneg : ∀ i, -inVars i ≠ 0 := fun i => neg_ne_zero.2 (hne i)
  rw [addStbTestClauses]
  induction List.finRange n generalizing solver with
  | nil => rfl
  | cons i is ih =>
    rw [List.foldl_cons, ih, List.flatMap_cons, IpasirSolver.pushAll_append]
    congr 1
    dsimp only
    rw [foldl_stbParents (f := fun _ => -inVars i) (g := fun j => -inVars j) (fun _ => hneg i) hneg,
      stbClauses, IpasirSolver.pushAll_append]
    have hunit : ∀ s : IpasirSolver, (if grounded.labIn.get i then satAddClause1 s (inVars i)
        else if grounded.labOut.get i then satAddClause1 s (-inVars i) else s) =
        s.pushAll (if grounded.labIn.get i then [[inVars i]]
          else if grounded.labOut.get i then [[-inVars i]] else []) := by
      intro s
      split_ifs
      · exact satAddClause1_eq (hne i)
      · exact satAddClause1_eq (hneg i)
      · rfl
    rw [hunit]
    cases h : (aaf.parents i).isEmpty with
    | true => simp
    | false =>
      have hclause : ∀ l ∈ inVars i :: (aaf.parents i).map inVars, l ≠ 0 := by
        intro l hl
        rcases List.mem_cons.1 hl with rfl | hl
        · exact hne i
        · exact ne_zero_of_mem_map hne hl
      rw [Bool.true_and, Bool.not_false, if_pos rfl, List.singleton_append,
        satAddClause_eq hclause, List.take_length]
      simp [IpasirSolver.pushAll_append]

theorem lit_neg_iff (hpos : ∀ i, 0 < inVars i) (i : Fin n) :
    τ.lit (-inVars i) = true ↔ i ∉ selected τ inVars := by
  rw [τ.lit_neg (hpos i), mem_selected, Bool.not_eq_true', Bool.not_eq_true]

theorem satisfies_stbUnits (hpos : ∀ i, 0 < inVars i) (hg : Grounds aaf grounded) (i : Fin n) :
    (∀ c ∈ (if grounded.labIn.get i then [[inVars i]]
      else if grounded.labOut.get i then [[-inVars i]] else []), τ.Satisfies c) ↔
      (i ∈ aaf.framework.grounded → i ∈ selected τ inVars) ∧
        (i ∉ aaf.framework.grounded →
          i ∈ aaf.framework.attackedBy aaf.framework.grounded → i ∉ selected τ inVars) := by
  rw [← hg.in_iff, ← hg.out_iff]
  split_ifs with hin hout
  · simp [hin]
  · simp [hin, hout, lit_neg_iff hpos]
  · simp [hin, hout]

/-- The long clause of an argument with parents: it is selected, or a parent is. -/
theorem satisfies_stbAttacked (i : Fin n) :
    (∀ c ∈ (if (aaf.parents i).isEmpty then [] else [inVars i :: (aaf.parents i).map inVars]),
      τ.Satisfies c) ↔
      (aaf.parents i ≠ [] → i ∈ selected τ inVars ∨
        i ∈ aaf.framework.attackedBy (selected τ inVars)) := by
  rw [AAF.mem_attackedBy_iff]
  split_ifs with h
  · simp [List.isEmpty_iff.1 h]
  · have hne : aaf.parents i ≠ [] := fun h' => h (List.isEmpty_iff.2 h')
    simp [hne, Assignment.satisfies_map]

theorem mem_grounded_of_parents_eq_nil {i : Fin n} (h : aaf.parents i = []) :
    i ∈ aaf.framework.grounded := by
  apply Framework.mem_grounded.2
  intro j hj
  rw [AAF.attacks_iff, h] at hj
  exact absurd hj List.not_mem_nil

/-- The assignments that satisfy the clauses are the stable extensions. -/
theorem stbClauses_iff (hpos : ∀ i, 0 < inVars i) (hg : Grounds aaf grounded) :
    (∀ c ∈ (List.finRange n).flatMap (stbClauses inVars aaf grounded), τ.Satisfies c) ↔
      aaf.framework.Stable (selected τ inVars) := by
  simp only [stbClauses, List.forall_mem_flatMap, List.mem_finRange, true_imp_iff,
    List.forall_mem_append, satisfies_stbUnits hpos hg, satisfies_stbAttacked, List.forall_mem_map,
    Assignment.satisfies_cons, Assignment.satisfies_nil, or_false, lit_neg_iff hpos]
  constructor
  · intro h
    constructor
    · intro j hj i hi hji
      rcases (h i).2.1 j hji with hi' | hj'
      · exact hi' hi
      · exact hj' hj
    · intro i hi
      have hparents : aaf.parents i ≠ [] := fun hnil =>
        hi ((h i).1.1 (mem_grounded_of_parents_eq_nil hnil))
      exact ((h i).2.2 hparents).resolve_left hi
  · intro h i
    have hG := h.complete.grounded_subset
    refine ⟨⟨fun hi => hG hi, fun _ => ?_⟩, fun j hj => ?_, fun _ => ?_⟩
    · exact h.conflictFree.notMem_of_grounded_attacks hG
    · by_cases hi : i ∈ selected τ inVars
      · exact .inr fun hjS => h.conflictFree j hjS i hi hj
      · exact .inl hi
    · by_cases hi : i ∈ selected τ inVars
      · exact .inl hi
      · exact .inr (h.attacked i hi)

theorem numberVars_pos (n : ℕ) (i : Fin n) : 0 < (numberVars n 1).1 i := by
  rw [numberVars_eq]
  dsimp only
  omega

theorem numberVars_injective (n : ℕ) : Function.Injective (numberVars n 1).1 := by
  rw [numberVars_eq]
  intro i j hij
  dsimp only at hij
  exact Fin.ext (by omega)

theorem addStbTestClauses_describes (hpos : ∀ i, 0 < inVars i) (hinj : Function.Injective inVars)
    (hg : Grounds aaf grounded) : (addStbTestClauses satInit inVars aaf grounded).Describes
      (fun τ => selected τ inVars) aaf.framework.Stable := by
  have hsurj : Function.Surjective fun τ : Assignment => selected τ inVars := fun S => by
    obtain ⟨τ, hτ⟩ := exists_assignment hpos hinj (· ∈ S)
    exact ⟨τ, Set.ext hτ⟩
  rw [addStbTestClauses_eq hpos]
  apply ((IpasirSolver.describes_satInit hsurj).pushAll (P := aaf.framework.Stable)
    fun τ => stbClauses_iff hpos hg).congr
  intro S
  rw [true_and]

end Encoding

section Correctness
variable {aaf : AAF n} {grounded : Labeling} {arg : Fin n} {doPrint : Bool}

/-- The positive arguments of a model without open variables, printed by name. -/
theorem total_printModel_names {solver : IpasirSolver} {vars : Fin n → ℤ} {τ : Assignment}
    (hpos : ∀ i, 0 < vars i) (w : World) :
    Prog.Total (printModel (solver.satisfied τ.model) vars aaf.ids2arguments) (fun _ w' =>
      ∃ line, WitnessLine aaf (selected τ vars) line ∧ w'.stdout = w.stdout ++ line) w := by
  rw [printModel_of_sat rfl, printf, Prog.total_atomic]
  exact ⟨_, .terminated _ (lists_positives hpos), rfl⟩

/-- The positive arguments of a model without open variables, printed by number. -/
theorem total_printModel_numbers {solver : IpasirSolver} {vars : Fin n → ℤ} {τ : Assignment}
    (hpos : ∀ i, 0 < vars i) (w : World) :
    Prog.Total (printModel (solver.satisfied τ.model) vars argNumber) (fun _ w' =>
      ∃ line, NumberedLine (selected τ vars) line ∧ w'.stdout = w.stdout ++ line) w := by
  rw [printModel_of_sat rfl, printf, Prog.total_atomic]
  exact ⟨_, ⟨_, lists_positives hpos, rfl⟩, rfl⟩

/-- A line that gives some set of a family as a witness, by number. -/
def GivesNumbers (P : Set (Fin n) → Prop) (line : String) : Prop := ∃ E, P E ∧ NumberedLine E line

/-- What follows an answer: a witness when the answer is the one that has witnesses. -/
def NumberedText (witnessed : Bool) (P : Set (Fin n) → Prop) (r : Bool) (text : String) : Prop :=
  if r = witnessed then GivesNumbers P text else text = ""

theorem total_report_numbers {b : Bool} {P : Set (Fin n) → Prop} {solver : IpasirSolver}
    {vars : Fin n → ℤ} {τ : Assignment} (hpos : ∀ i, 0 < vars i) (hP : P (selected τ vars))
    (w : World) : Prog.Total
      (report doPrint b
        (if printWitness then printModel (solver.satisfied τ.model) vars argNumber else pure ()))
      (fun _ => Reported doPrint b (NumberedText b P b) w) w := by
  rw [show printWitness = true from rfl, if_pos rfl]
  apply total_report
  intro w'
  apply (total_printModel_numbers hpos w').mono
  rintro _ w'' ⟨line, hline, hw⟩
  exact ⟨line, (if_pos rfl).mpr ⟨_, hP, hline⟩, hw⟩

theorem total_report_bare {b : Bool} {P : Set (Fin n) → Prop} (w : World) :
    Prog.Total (report doPrint b (pure ()))
      (fun _ => Reported doPrint b (NumberedText (!b) P b) w) w := by
  apply total_report_pure
  cases b <;> rfl

theorem total_answer_bare {b : Bool} {Q : Prop} {P : Set (Fin n) → Prop} (hb : b = true ↔ Q)
    {w w' : World} (hw : w'.stdout = w.stdout) :
    Prog.Total (do report doPrint b (pure ()); pure b : Prog World Bool) (fun r w'' =>
      (r = true ↔ Q) ∧ Reported doPrint r (NumberedText (!b) P r) w w'') w' := by
  apply Prog.Total.bind
  apply (total_report_bare w').mono
  intro _ w'' h
  exact Prog.total_pure.2 ⟨hb, h.of_eq hw⟩

theorem total_answer_numbers {b : Bool} {Q : Prop} {P : Set (Fin n) → Prop}
    {solver : IpasirSolver} {vars : Fin n → ℤ} {τ : Assignment} (hpos : ∀ i, 0 < vars i)
    (hb : b = true ↔ Q) (hP : P (selected τ vars)) {w w' : World} (hw : w'.stdout = w.stdout) :
    Prog.Total (do
      report doPrint b
        (if printWitness then printModel (solver.satisfied τ.model) vars argNumber else pure ())
      pure b : Prog World Bool) (fun r w'' =>
      (r = true ↔ Q) ∧ Reported doPrint r (NumberedText b P r) w w'') w' := by
  apply Prog.Total.bind
  apply (total_report_numbers hpos hP w').mono
  intro _ w'' h
  exact Prog.total_pure.2 ⟨hb, h.of_eq hw⟩

theorem total_solveSest (ω : TotalOracle) (hg : Grounds aaf grounded) (w : World) :
    Prog.Total (solveSest ω.answer aaf grounded) (fun _ w' =>
      ((¬ ∃ E, aaf.framework.Stable E) ∧ w'.stdout = w.stdout ++ "NO\n") ∨
        ∃ line, GivesWitness aaf aaf.framework.Stable line ∧ w'.stdout = w.stdout ++ line) w := by
  have hpos := numberVars_pos n
  have hdesc := addStbTestClauses_describes hpos (numberVars_injective n) hg
  rw [solveSest]
  apply Prog.Total.bind
  apply hdesc.total_satSolve ω [] (A := fun _ => True) (fun τ => by simp)
  · intro τ w' hτ _ hw'
    dsimp only
    rw [if_neg (by decide)]
    apply (total_printModel_names hpos w').mono
    rintro _ w'' ⟨line, hline, hw''⟩
    exact .inr ⟨line, ⟨_, hτ, hline⟩, by rw [hw'', hw']⟩
  · intro w' hno hw'
    dsimp only
    rw [if_pos rfl, printf, Prog.total_atomic]
    exact .inl ⟨fun ⟨E, hE⟩ => hno E hE trivial, by rw [hw']⟩

/-- DC-ST: a search under the assumption that the argument is in the extension. -/
theorem total_solveDcst (ω : TotalOracle) (hg : Grounds aaf grounded) (w : World) :
    Prog.Total (solveDcst ω.answer aaf grounded arg doPrint) (fun r w' =>
      (r = true ↔ ∃ E, aaf.framework.Stable E ∧ arg ∈ E) ∧
        Reported doPrint r
          (NumberedText true (fun E => aaf.framework.Stable E ∧ arg ∈ E) r) w w') w := by
  have hpos := numberVars_pos n
  have hdesc := addStbTestClauses_describes hpos (numberVars_injective n) hg
  rw [solveDcst]
  dsimp only
  rw [satAssume_of_closed hdesc.closed, pure_bind]
  apply Prog.Total.bind
  apply hdesc.total_satSolve ω [(numberVars n 1).1 arg] (A := fun E => arg ∈ E) (fun τ => by simp)
  · intro τ w' hτ harg hw'
    dsimp only
    rw [if_neg (by decide)]
    exact total_answer_numbers hpos (iff_of_true rfl ⟨_, hτ, harg⟩) ⟨hτ, harg⟩ hw'
  · intro w' hno hw'
    dsimp only
    rw [if_pos rfl]
    exact total_answer_bare
      (iff_of_false Bool.false_ne_true fun ⟨E, hE, harg⟩ => hno E hE harg) hw'

/-- DS-ST: with no stable extension every argument is accepted; an argument that the grounded
labeling has OUT is missing from the extension found already. -/
theorem total_solveDsst (ω : TotalOracle) (hg : Grounds aaf grounded) (w : World) :
    Prog.Total (solveDsst ω.answer aaf grounded arg doPrint) (fun r w' =>
      (r = true ↔ ∀ E, aaf.framework.Stable E → arg ∈ E) ∧
        Reported doPrint r
          (NumberedText false (fun E => aaf.framework.Stable E ∧ arg ∉ E) r) w w') w := by
  have hpos := numberVars_pos n
  have hdesc := addStbTestClauses_describes hpos (numberVars_injective n) hg
  have hyes : ∀ w', (∀ E, aaf.framework.Stable E → arg ∈ E) → w'.stdout = w.stdout →
      Prog.Total (do report doPrint true (pure ()); pure true : Prog World Bool) (fun r w'' =>
        (r = true ↔ ∀ E, aaf.framework.Stable E → arg ∈ E) ∧ Reported doPrint r
          (NumberedText false (fun E => aaf.framework.Stable E ∧ arg ∉ E) r) w w'') w' :=
    fun w' hall hw' => total_answer_bare (iff_of_true rfl hall) hw'
  rw [solveDsst]
  dsimp only
  apply Prog.Total.bind
  apply hdesc.total_satSolve ω [] (A := fun _ => True) (fun τ => by simp)
  · intro τ w' hτ _ hw'
    dsimp only
    rw [if_neg (by decide)]
    by_cases hin : grounded.labIn.get arg = true
    · have harg := (hg.in_iff arg).1 hin
      rw [if_pos hin]
      exact hyes w' (fun E hE => hE.complete.grounded_subset harg) hw'
    rw [if_neg hin]
    by_cases hout : grounded.labOut.get arg = true
    · have harg := (hg.out_iff arg).1 hout
      rw [if_pos hout]
      have hnot := hτ.conflictFree.notMem_of_grounded_attacks hτ.complete.grounded_subset harg
      exact total_answer_numbers hpos
        (iff_of_false Bool.false_ne_true fun hall => hnot (hall _ hτ)) ⟨hτ, hnot⟩ hw'
    · have hdesc' := hdesc.satisfied τ.model
      rw [if_neg hout, satAssume_of_closed hdesc'.closed, pure_bind]
      apply Prog.Total.bind
      apply hdesc'.total_satSolve ω [-(numberVars n 1).1 arg] (A := fun E => arg ∉ E)
      · intro υ
        rw [List.forall_mem_singleton, υ.lit_neg (hpos arg), mem_selected, Bool.not_eq_true',
          Bool.not_eq_true]
      · intro υ w'' hυ harg hw''
        dsimp only
        rw [if_neg (by decide)]
        exact total_answer_numbers hpos
          (iff_of_false Bool.false_ne_true fun hall => harg (hall _ hυ)) ⟨hυ, harg⟩
          (hw''.trans hw')
      · intro w'' hnone hw''
        dsimp only
        rw [if_pos rfl]
        apply hyes w'' _ (hw''.trans hw')
        intro E hE
        by_contra harg
        exact hnone E hE harg
  · intro w' hnone hw'
    dsimp only
    rw [if_pos rfl]
    exact hyes w' (fun E hE => absurd trivial (hnone E hE)) hw'

theorem Reported.witness {witnessed r : Bool} {P : Set (Fin n) → Prop} {w w' : World}
    (h : Reported doPrint r (NumberedText witnessed P r) w w') (hr : r = witnessed)
    (hp : doPrint = true) : ∃ E line, P E ∧ NumberedLine E line ∧
      w'.stdout = w.stdout ++ (answer r ++ line) := by
  subst hp
  obtain ⟨line, htext, hw⟩ := h
  rw [NumberedText, if_pos hr] at htext
  obtain ⟨E, hE, hline⟩ := htext
  exact ⟨E, line, hE, hline, hw⟩

/-- SE-ST prints "NO" when there is no stable extension and a stable extension otherwise; DC-ST
and DS-ST decide membership in some and in every stable extension, each with its witness. -/
theorem stableTasks_correct (ω : TotalOracle) (aaf : AAF n) (arg : Fin n) (doPrint : Bool)
    (w : World) :
    Prog.Total (solveSest ω.answer aaf (computeGrounded aaf).1) (fun _ w' =>
      ((¬ ∃ E, aaf.framework.Stable E) ∧ w'.stdout = w.stdout ++ "NO\n") ∨
        ∃ line, GivesWitness aaf aaf.framework.Stable line ∧ w'.stdout = w.stdout ++ line) w ∧
    Prog.Total (solveDcst ω.answer aaf (computeGrounded aaf).1 arg doPrint) (fun r w' =>
      (r = true ↔ ∃ E, aaf.framework.Stable E ∧ arg ∈ E) ∧
      (r = true → doPrint = true → ∃ E line, (aaf.framework.Stable E ∧ arg ∈ E) ∧
        NumberedLine E line ∧ w'.stdout = w.stdout ++ ("YES\n" ++ line))) w ∧
    Prog.Total (solveDsst ω.answer aaf (computeGrounded aaf).1 arg doPrint) (fun r w' =>
      (r = true ↔ ∀ E, aaf.framework.Stable E → arg ∈ E) ∧
      (r = false → doPrint = true → ∃ E line, (aaf.framework.Stable E ∧ arg ∉ E) ∧
        NumberedLine E line ∧ w'.stdout = w.stdout ++ ("NO\n" ++ line))) w := by
  have hg := computeGrounded_represents aaf
  refine ⟨total_solveSest ω hg w, ?_, ?_⟩
  · apply (total_solveDcst ω hg w).mono
    rintro r w' ⟨hr, htext⟩
    refine ⟨hr, ?_⟩
    rintro rfl hp
    exact htext.witness rfl hp
  · apply (total_solveDsst ω hg w).mono
    rintro r w' ⟨hr, htext⟩
    refine ⟨hr, ?_⟩
    rintro rfl hp
    exact htext.witness rfl hp

end Correctness

end TaasFudge
