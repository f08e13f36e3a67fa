import TaasFudge.Argumentation.Labelling
import TaasFudge.Taas.Solve
import TaasFudge.Tasks.Stable

/-! # DC-CO and DC-PR

Complete labellings are the models of their encoding, so one search under an assumption
decides whether an argument is in a complete extension. Preferred extensions and admissible
sets contain it in the same cases.
-/

namespace TaasFudge

open Dimacs

variable {n : ℕ}

section Encoding
variable {inVars outVars : Fin n → ℤ} {aaf : AAF n} {grounded : Labeling} {solver : IpasirSolver}
  {τ : Assignment}

def comClauses (inVars outVars : Fin n → ℤ) (aaf : AAF n) (grounded : Labeling) (i : Fin n) :
    List Clause :=
  [-inVars i, -outVars i] ::
    if grounded.labIn.get i then [[inVars i]]
    else if grounded.labOut.get i then [[outVars i]]
    else (aaf.parents i).flatMap (fun j => [[-inVars i, outVars j], [-inVars j, outVars i]]) ++
      [-outVars i :: (aaf.parents i).map inVars, inVars i :: (aaf.parents i).map fun j => -outVars j]

/-- The loop over the parents, which adds two clauses for each and collects two more. -/
theorem foldl_comParents (hv : LabelVars inVars outVars) (i : Fin n) (xs : List (Fin n))
    (s : IpasirSolver) (c d : List ℤ) :
    xs.foldl (fun (p : IpasirSolver × List ℤ × List ℤ) j =>
      (satAddClause2 (satAddClause2 p.1 (-inVars i) (outVars j)) (-inVars j) (outVars i),
        p.2.1 ++ [inVars j], p.2.2 ++ [-outVars j])) (s, c, d) =
      (s.pushAll (xs.flatMap fun j => [[-inVars i, outVars j], [-inVars j, outVars i]]),
        c ++ xs.map inVars, d ++ xs.map fun j => -outVars j) := by
  have hneg : ∀ j, -inVars j ≠ 0 := fun j => neg_ne_zero.2 (hv.in_ne j)
  induction xs generalizing s c d with
  | nil => simp
  | cons x xs ih =>
    rw [List.foldl_cons, ih, satAddClause2_eq (hneg i) (hv.out_ne x),
      satAddClause2_eq (hneg x) (hv.out_ne i)]
    simp

theorem addComTestClauses_eq (hv : LabelVars inVars outVars) :
    addComTestClauses solver inVars outVars aaf grounded =
      solver.pushAll ((List.finRange n).flatMap (comClauses inVars outVars aaf grounded)) := by
  rw [addComTestClauses]
  induction List.finRange n generalizing solver with
  | nil => rfl
  | cons i is ih =>
    rw [List.foldl_cons, ih, List.flatMap_cons, IpasirSolver.pushAll_append]
    congr 1
    have hneg : -inVars i ≠ 0 := neg_ne_zero.2 (hv.in_ne i)
    have hneg' : ∀ j, -outVars j ≠ 0 := fun j => neg_ne_zero.2 (hv.out_ne j)
    dsimp only
    rw [satAddClause2_eq hneg (hneg' i), comClauses]
    split_ifs with hin hout
    · rw [satAddClause1_eq (hv.in_ne i)]
      rfl
    · rw [satAddClause1_eq (hv.out_ne i)]
      rfl
    · have hout : ∀ l ∈ -outVars i :: (aaf.parents i).map inVars, l ≠ 0 := by
        rw [List.forall_mem_cons]
        exact ⟨hneg' i, fun l => ne_zero_of_mem_map hv.in_ne⟩
      have hin : ∀ l ∈ inVars i :: (aaf.parents i).map fun j => -outVars j, l ≠ 0 := by
        rw [List.forall_mem_cons]
        exact ⟨hv.in_ne i, fun l => ne_zero_of_mem_map hneg'⟩
      rw [foldl_comParents hv, List.singleton_append, List.singleton_append, satAddClause_eq hout,
        satAddClause_eq hin, List.take_length, List.take_length, IpasirSolver.pushAll_cons,
        IpasirSolver.pushAll_append]
      rfl

theorem satisfies_comClauses (hv : LabelVars inVars outVars) (i : Fin n) :
    (∀ c ∈ (aaf.parents i).flatMap (fun j => [[-inVars i, outVars j], [-inVars j, outVars i]]) ++
      [-outVars i :: (aaf.parents i).map inVars,
        inVars i :: (aaf.parents i).map fun j => -outVars j], τ.Satisfies c) ↔
      (∀ j ∈ aaf.parents i, (i ∈ selected τ inVars → j ∈ selected τ outVars) ∧
        (j ∈ selected τ inVars → i ∈ selected τ outVars)) ∧
      (i ∈ selected τ outVars → ∃ j ∈ aaf.parents i, j ∈ selected τ inVars) ∧
      ((∀ j ∈ aaf.parents i, j ∈ selected τ outVars) → i ∈ selected τ inVars) := by
  have hpair : ∀ j, (∀ c ∈ [[-inVars i, outVars j], [-inVars j, outVars i]], τ.Satisfies c) ↔
      (i ∈ selected τ inVars → j ∈ selected τ outVars) ∧
        (j ∈ selected τ inVars → i ∈ selected τ outVars) := by
    intro j
    rw [List.forall_mem_cons, List.forall_mem_singleton, imp_iff_not_or, imp_iff_not_or]
    simp [hv.lit_neg_in]
  have hsome : τ.Satisfies (-outVars i :: (aaf.parents i).map inVars) ↔
      (i ∈ selected τ outVars → ∃ j ∈ aaf.parents i, j ∈ selected τ inVars) := by
    simp [hv.lit_neg_out, Assignment.satisfies_map, imp_iff_not_or]
  have hall : τ.Satisfies (inVars i :: (aaf.parents i).map fun j => -outVars j) ↔
      ((∀ j ∈ aaf.parents i, j ∈ selected τ outVars) → i ∈ selected τ inVars) := by
    rw [imp_iff_or_not, Assignment.satisfies_cons, Assignment.satisfies_map]
    push Not
    simp only [hv.lit_neg_out, mem_selected]
  rw [List.forall_mem_append, List.forall_mem_flatMap, List.forall_mem_cons,
    List.forall_mem_singleton, hsome, hall]
  simp only [hpair]

/-- The assignments that satisfy the clauses are the complete labellings. Across the border of
the grounded labelling the missing clauses follow from its being complete. -/
theorem comClauses_iff (hv : LabelVars inVars outVars) (hg : Grounds aaf grounded) :
    (∀ c ∈ (List.finRange n).flatMap (comClauses inVars outVars aaf grounded), τ.Satisfies c) ↔
      aaf.framework.CompleteLabelling (selected τ inVars) (selected τ outVars) := by
  classical
  rw [forall_argument_clauses fun i => by
    rw [comClauses, satisfies_exclusive hv, satisfies_grounded hg, satisfies_comClauses hv],
    forall_and, Framework.grounded_units_iff]
  have hdefends := (Framework.grounded_complete (F := aaf.framework)).admissible.defends
  constructor
  · rintro ⟨hd, hG, hGo, h⟩
    refine ⟨hd, fun i => ?_, fun i => ?_⟩
    · by_cases hin : i ∈ aaf.framework.grounded
      · exact iff_of_true (hG hin) fun j hji => hGo (hdefends i hin j hji)
      · by_cases hout : i ∈ aaf.framework.attackedBy aaf.framework.grounded
        · apply iff_of_false fun hi => hd i hi (hGo hout)
          obtain ⟨j, hj, hji⟩ := hout
          intro hall
          exact hd j (hG hj) (hall j hji)
        · have hi := h i hin hout
          exact ⟨fun hiS j hji => (hi.1 j hji).1 hiS, hi.2.2⟩
    · by_cases hin : i ∈ aaf.framework.grounded
      · apply iff_of_false (hd i (hG hin))
        rintro ⟨j, hj, hji⟩
        exact hd j hj (hGo (hdefends i hin j hji))
      · by_cases hout : i ∈ aaf.framework.attackedBy aaf.framework.grounded
        · exact iff_of_true (hGo hout) (Framework.attackedBy_mono hG hout)
        · have hi := h i hin hout
          constructor
          · intro hiO
            obtain ⟨j, hji, hj⟩ := hi.2.1 hiO
            exact ⟨j, hj, hji⟩
          · rintro ⟨j, hj, hji⟩
            exact (hi.1 j hji).2 hj
  · intro h
    have hG := h.complete.grounded_subset
    refine ⟨h.disjoint, hG, ?_, fun i _ _ => ⟨fun j hji => ⟨fun hi => ?_, fun hj => ?_⟩,
      fun hi => ?_, (h.in_iff i).2⟩⟩
    · rw [h.out_eq]
      exact Framework.attackedBy_mono hG
    · exact (h.in_iff i).1 hi j hji
    · exact (h.out_iff i).2 ⟨j, hj, hji⟩
    · obtain ⟨j, hj, hji⟩ := (h.out_iff i).1 hi
      exact ⟨j, hji, hj⟩

theorem addComTestClauses_describes (hv : LabelVars inVars outVars) (hg : Grounds aaf grounded) :
    (addComTestClauses satInit inVars outVars aaf grounded).Describes (labels inVars outVars)
      fun b => aaf.framework.CompleteLabelling b.1 b.2 := by
  rw [addComTestClauses_eq hv]
  apply ((IpasirSolver.describes_satInit hv.labels_surjective).pushAll
    (P := fun b => aaf.framework.CompleteLabelling b.1 b.2) fun τ => comClauses_iff hv hg).congr
  intro b
  rw [true_and]

end Encoding

section Program
variable (ω : Oracle) (aaf : AAF n) (grounded : Labeling) (arg : Fin n) (doPrint : Bool)

def dccoSearch : Prog World (ℤ × IpasirSolver) := do
  let (inVars, outVars, _) := numberPairs n 1
  let solver := addComTestClauses satInit inVars outVars aaf grounded
  let solver ← satAssume solver (inVars arg)
  satSolve ω solver

theorem solveDcco_search : solveDcco ω aaf grounded arg doPrint = (do
    let (sat, solver) ← dccoSearch ω aaf grounded arg
    if sat = 20 then
      report doPrint false (pure ())
      pure false
    else
      report doPrint true
        (if printWitness then printModel solver (numberPairs n 1).1 argNumber else pure ())
      pure true) := rfl

end Program

section Correctness
variable {aaf : AAF n} {grounded : Labeling} {arg : Fin n} {doPrint : Bool}

/-- The search finds a complete labelling with the argument IN, or there is none. -/
theorem total_dccoSearch (ω : TotalOracle) (hg : Grounds aaf grounded) (w : World) :
    Prog.Total (dccoSearch ω.answer aaf grounded arg) (fun r w' => w'.stdout = w.stdout ∧
      ((r.1 = 20 ∧ ∀ E, aaf.framework.Complete E → arg ∉ E) ∨
        ∃ (solver : IpasirSolver) (τ : Assignment), r = (10, solver.satisfied τ.model) ∧
          aaf.framework.Complete (selected τ (numberPairs n 1).1) ∧
          arg ∈ selected τ (numberPairs n 1).1)) w := by
  have hv := labelVars_numberPairs n Int.one_pos
  have hdesc := addComTestClauses_describes hv hg
  rw [dccoSearch]
  dsimp only
  rw [satAssume_of_closed hdesc.closed, pure_bind]
  apply hdesc.total_satSolve ω [(numberPairs n 1).1 arg] (A := fun b => arg ∈ b.1)
    (fun τ => by simp)
  · intro τ w' hτ harg hw'
    exact ⟨hw', .inr ⟨_, τ, rfl, hτ.complete, harg⟩⟩
  · intro w' hno hw'
    refine ⟨hw', .inl ⟨rfl, fun E hE => ?_⟩⟩
    exact hno (E, aaf.framework.attackedBy E) hE.labelling

theorem total_solveDcco (ω : TotalOracle) (hg : Grounds aaf grounded) (w : World) :
    Prog.Total (solveDcco ω.answer aaf grounded arg doPrint) (fun r w' =>
      (r = true ↔ ∃ E, aaf.framework.Complete E ∧ arg ∈ E) ∧
        Reported doPrint r
          (NumberedText true (fun E => aaf.framework.Complete E ∧ arg ∈ E) r) w w') w := by
  have hpos := (labelVars_numberPairs n Int.one_pos).in_pos
  rw [solveDcco_search]
  apply Prog.Total.bind
  apply (total_dccoSearch ω hg w).mono
  rintro ⟨sat, solver⟩ w' ⟨hw', ⟨hsat, hno⟩ | ⟨solver', τ, hr, hτ, harg⟩⟩
  · dsimp only at hsat ⊢
    rw [if_pos hsat]
    exact total_answer_bare
      (iff_of_false Bool.false_ne_true fun ⟨E, hE, harg⟩ => hno E hE harg) hw'
  · obtain ⟨rfl, rfl⟩ := Prod.mk.inj hr
    dsimp only
    rw [if_neg (by decide)]
    exact total_answer_numbers hpos (iff_of_true rfl ⟨_, hτ, harg⟩) ⟨hτ, harg⟩ hw'

/-- DC-CO and DC-PR run one procedure, which answers whether the argument is in some complete
extension, in some preferred extension, in some admissible set. The model behind a positive answer,
and the line printed for it, give a complete extension with the argument. -/
theorem solveDcco_decides (ω : TotalOracle) (aaf : AAF n) (arg : Fin n) (doPrint : Bool)
    (w : World) :
    (∀ grounded, solveSwitch ω.answer ⟨"DC-CO", some arg⟩ aaf grounded =
        discard (solveDcco ω.answer aaf grounded arg true) ∧
      solveSwitch ω.answer ⟨"DC-PR", some arg⟩ aaf grounded =
        discard (solveDcco ω.answer aaf grounded arg true)) ∧
    Prog.Total (solveDcco ω.answer aaf (computeGrounded aaf).1 arg doPrint) (fun r w' =>
      (r = true ↔ ∃ E, aaf.framework.Complete E ∧ arg ∈ E) ∧
      (r = true ↔ ∃ E, aaf.framework.Preferred E ∧ arg ∈ E) ∧
      (r = true ↔ ∃ E, aaf.framework.Admissible E ∧ arg ∈ E) ∧
      (r = true → doPrint = true → ∃ E line, (aaf.framework.Complete E ∧ arg ∈ E) ∧
        NumberedLine E line ∧ w'.stdout = w.stdout ++ ("YES\n" ++ line))) w ∧
    Prog.Total (dccoSearch ω.answer aaf (computeGrounded aaf).1 arg) (fun r _ => r.1 ≠ 20 →
      aaf.framework.Complete {i | 0 < r.2.model.value ((numberPairs n 1).1 i)} ∧
        0 < r.2.model.value ((numberPairs n 1).1 arg)) w := by
  have hg := computeGrounded_represents aaf
  refine ⟨fun grounded => ⟨rfl, rfl⟩, ?_, ?_⟩
  · apply (total_solveDcco ω hg w).mono
    rintro r w' ⟨hr, htext⟩
    rw [Framework.exists_preferred_mem_iff, ← Framework.exists_complete_mem_iff]
    refine ⟨hr, hr, hr, ?_⟩
    rintro rfl hp
    exact htext.witness rfl hp
  · have hpos := (labelVars_numberPairs n Int.one_pos).in_pos
    apply (total_dccoSearch ω hg w).mono
    rintro r w' ⟨-, ⟨hsat, -⟩ | ⟨solver, τ, rfl, hτ, harg⟩⟩ hne
    · exact absurd hsat hne
    · have hin : {i | 0 < τ.model.value ((numberPairs n 1).1 i)} =
          selected τ (numberPairs n 1).1 := by
        ext i
        exact τ.value_pos_iff (hpos i)
      refine ⟨?_, (τ.value_pos_iff (hpos arg)).2 harg⟩
      change aaf.framework.Complete {i | 0 < τ.model.value ((numberPairs n 1).1 i)}
      rwa [hin]

end Correctness

end TaasFudge
