import TaasFudge.Tasks.SeId

/-! # DS-ID without a witness

The computation of the ideal extension, left as soon as the argument of the query
drops out. A loop that is left this way has no result.
-/

namespace TaasFudge

open Dimacs

variable {n : ℕ}

section Program
variable (ω : Oracle) (aaf : AAF n) (grounded : Labeling) (arg : Fin n) (doPrint : Bool)
  (inVars : Fin n → ℤ)

/-- Remove the children of all IN arguments, unless the argument would be removed. -/
def removeChildrenExcept (solver : IpasirSolver) (psc : RaSet n) :
    Prog World (Option (RaSet n)) :=
  (List.finRange n).foldlM (fun (psc : Option (RaSet n)) (i : Fin n) =>
    match psc with
    | none => pure none
    | some psc => do
      let pos ← satPos solver (inVars i)
      pure (if pos then (aaf.children i).foldlM (fun (psc : RaSet n) j =>
        if psc.contains j then
          if j = arg then none else some (psc.remove j)
        else some psc) psc else some psc)) (some psc)

def dsidRound (st : PscState n) :
    Prog World (LoopStep (PscState n) (Option (RaSet n × Bool))) := do
  let (emptyclause, solver) := addAttackers aaf inVars st.psc st.solver
  if emptyclause then pure (.exit (some (st.psc, st.onerunonly)))
  else
    let (sat, solver) ← satSolve ω (satAdd solver 0)
    if sat = 20 then pure (.exit (some (st.psc, st.onerunonly)))
    else
      let psc ← removeChildrenExcept aaf arg inVars solver st.psc
      match psc with
      | none => pure (.exit none)
      | some psc => pure (.again ⟨solver, psc, false⟩)

/-- The members of `psc` that no member of `psc` attacks, unless the argument is attacked. -/
def keepUnattackedExcept (psc : RaSet n) : Option (RaSet n) :=
  psc.elementsArr.foldlM (fun ideal i =>
    if (aaf.parents i).any fun j => psc.contains j then
      if i = arg then none else some ideal
    else some (ideal.add i)) (RaSet.initEmpty n)

def sweepStepExcept (st : SweepState n) :
    Prog World (LoopStep (SweepState n) (Option (SweepState n))) :=
  if h : st.i < st.ideal.elementsArr.length then
    let a := st.ideal.elementsArr[st.i]
    if isDefended aaf st.ideal a then pure (.again { st with i := st.i + 1 })
    else if a = arg then pure (.exit none)
    else pure (.again ⟨st.i, st.ideal.remove a, true⟩)
  else pure (.exit (some st))

def removeUndefendedExcept (ideal : RaSet n) : Prog World (Option (RaSet n)) :=
  Prog.loop (fun ideal => do
    let st ← Prog.loop (sweepStepExcept aaf arg) ⟨0, ideal, false⟩
    match st with
    | none => pure (.exit none)
    | some st => pure (if st.changed then .again st.ideal else .exit (some st.ideal))) ideal

/-- `if (do_print) printf("NO\n"); return false;` -/
def answerNo : Prog World Bool := do
  report doPrint false (pure ())
  pure false

def solveDsid : Prog World Bool := do
  let (inVars, outVars, _) := numberPairs n 1
  let solver := (addAdmTestClauses satInit inVars outVars aaf grounded).2
  let psc ← Prog.loop (dsidRound ω aaf arg inVars) ⟨solver, pscStart grounded, true⟩
  match psc with
  | none => answerNo doPrint
  | some (psc, onerunonly) =>
    if onerunonly then answerNo doPrint
    else if psc.numberOfElements = 0 then answerNo doPrint
    else
      match keepUnattackedExcept aaf arg psc with
      | none => answerNo doPrint
      | some ideal =>
        let ideal ← removeUndefendedExcept aaf arg ideal
        match ideal with
        | none => answerNo doPrint
        | some _ =>
          report doPrint true (pure ())
          pure true

end Program

section Correctness
variable {aaf : AAF n} {grounded : Labeling} {arg : Fin n} {doPrint : Bool}
  {inVars outVars : Fin n → ℤ}

/-- A loop that removes arguments is left exactly when the argument would be removed. -/
theorem foldlM_removeExcept (xs : List (Fin n)) (psc : RaSet n) :
    xs.foldlM (fun (psc : RaSet n) j =>
      if psc.contains j then if j = arg then none else some (psc.remove j) else some psc) psc =
      if arg ∈ xs ∧ arg ∈ psc then none else some (xs.foldl RaSet.remove psc) := by
  induction xs generalizing psc with
  | nil => simp
  | cons x xs ih =>
    rw [List.foldlM_cons]
    by_cases hx : x ∈ psc
    · rw [if_pos (RaSet.contains_iff.2 hx)]
      by_cases hxarg : x = arg
      · subst hxarg
        simp [hx]
      · have hiff : (arg ∈ xs ∧ arg ∈ psc.remove x) ↔ (arg ∈ x :: xs ∧ arg ∈ psc) := by
          rw [RaSet.mem_remove, List.mem_cons]
          constructor
          · rintro ⟨h, hpsc, -⟩
            exact ⟨.inr h, hpsc⟩
          · rintro ⟨h, hpsc⟩
            exact ⟨h.resolve_left (Ne.symm hxarg), hpsc, Ne.symm hxarg⟩
        rw [if_neg hxarg, Option.bind_eq_bind, Option.bind_some, ih, List.foldl_cons]
        simp only [hiff]
    · have hremove : psc.remove x = psc := RaSet.remove_of_notMem hx
      have hiff : (arg ∈ xs ∧ arg ∈ psc) ↔ (arg ∈ x :: xs ∧ arg ∈ psc) := by
        rw [List.mem_cons]
        constructor
        · rintro ⟨h, hpsc⟩
          exact ⟨.inr h, hpsc⟩
        · rintro ⟨rfl | h, hpsc⟩
          · exact absurd hpsc hx
          · exact ⟨h, hpsc⟩
      rw [if_neg fun h => hx (RaSet.contains_iff.1 h), Option.bind_eq_bind, Option.bind_some, ih,
        List.foldl_cons, hremove]
      simp only [hiff]

theorem removeChildrenExcept_of_sat {solver : IpasirSolver} (h : solver.state = .sat)
    (psc : RaSet n) : removeChildrenExcept aaf arg inVars solver psc =
      pure (if arg ∈ (positives solver.model inVars).flatMap aaf.children ∧ arg ∈ psc then none
        else some (((positives solver.model inVars).flatMap aaf.children).foldl RaSet.remove psc)) := by
  rw [← foldlM_removeExcept, removeChildrenExcept, positives]
  simp only [satPos_of_sat h, pure_bind]
  induction List.finRange n generalizing psc with
  | nil => rfl
  | cons i is ih =>
    rw [List.foldlM_cons, List.filter_cons, pure_bind]
    split_ifs with hi
    · rw [List.flatMap_cons, List.foldlM_append]
      cases (aaf.children i).foldlM (fun (psc : RaSet n) j => if psc.contains j then
          if j = arg then none else some (psc.remove j) else some psc) psc with
      | none =>
        have hnone : ∀ is : List (Fin n), is.foldlM (fun (psc : Option (RaSet n)) (i : Fin n) =>
            (match psc with
            | none => pure none
            | some psc => pure (if decide (0 < solver.model.value (inVars i)) = true
              then (aaf.children i).foldlM (fun (psc : RaSet n) j => if psc.contains j then
                if j = arg then none else some (psc.remove j) else some psc) psc
              else some psc) : Prog World (Option (RaSet n)))) none = pure none := by
          intro is
          induction is with
          | nil => rfl
          | cons j js ih => rw [List.foldlM_cons, pure_bind, ih]
        exact hnone is
      | some psc' => exact ih psc'
    · exact ih psc

/-- Nothing was left: the loop over admissible sets kept the argument. -/
structure DsidPscPost (aaf : AAF n) (arg : Fin n) (r : RaSet n × Bool) : Prop where
  post : PscPost aaf r
  mem : arg ∈ r.1

theorem total_dsidRound (ω : TotalOracle) (hv : LabelVars inVars outVars) {st : PscState n}
    {R : Set (Fin n) × Set (Fin n) → Prop} {w₀ w : World} (h : PscInv aaf inVars outVars st R)
    (harg : arg ∈ st.psc) (hw : w.stdout = w₀.stdout) :
    Prog.Total (dsidRound ω.answer aaf arg inVars st) (LoopStep.post
      (fun st' w' => (((∃ R', PscInv aaf inVars outVars st' R') ∧ arg ∈ st'.psc) ∧
        w'.stdout = w₀.stdout) ∧ st'.psc.numberOfElements < st.psc.numberOfElements)
      fun r w' => (match r with
        | none => arg ∉ aaf.framework.superCore
        | some r => DsidPscPost aaf arg r) ∧ w'.stdout = w₀.stdout) w := by
  rw [dsidRound, addAttackers_eq]
  dsimp only
  split_ifs with hempty
  · exact Prog.total_pure.2 ⟨⟨h.post_of_isEmpty hempty, harg⟩, hw⟩
  · rw [satAdd_zero_foldl fun l => ne_zero_of_mem_map hv.in_ne]
    apply Prog.Total.bind
    apply h.describes_attack.total_satSolve ω [] (A := fun _ => True) (fun τ => by simp)
    · rintro τ w₁ ⟨hτ, hatt⟩ - hw₁
      dsimp only
      rw [if_neg (by decide), removeChildrenExcept_of_sat rfl, pure_bind]
      by_cases hremoved : arg ∈ (positives τ.model inVars).flatMap aaf.children ∧ arg ∈ st.psc
      · -- the argument is attacked by the admissible set found
        rw [IpasirSolver.satisfied, if_pos hremoved, Prog.total_pure]
        refine ⟨fun hcore => ?_, hw₁.trans hw⟩
        have hleft := (mem_removeChildren hv.in_pos).2 ⟨harg, hcore _ (h.sound _ hτ).admissible⟩
        rw [RaSet.mem_foldl_remove] at hleft
        exact hleft.2 hremoved.1
      · rw [IpasirSolver.satisfied, if_neg hremoved, Prog.total_pure]
        obtain ⟨hinv, hlt⟩ := h.remove hv hτ hatt
        refine ⟨⟨⟨⟨_, hinv⟩, ?_⟩, hw₁.trans hw⟩, hlt⟩
        rw [RaSet.mem_foldl_remove]
        exact ⟨harg, fun hmem => hremoved ⟨hmem, harg⟩⟩
    · intro w₁ hno hw₁
      dsimp only
      rw [if_pos rfl, Prog.total_pure]
      exact ⟨⟨h.post fun b hb hatt => hno b ⟨hb, hatt⟩ trivial, harg⟩, hw₁.trans hw⟩

theorem total_dsidLoop (ω : TotalOracle) (hv : LabelVars inVars outVars) (hg : Grounds aaf grounded)
    (hout : arg ∉ aaf.framework.attackedBy aaf.framework.grounded) (w : World) :
    Prog.Total (Prog.loop (dsidRound ω.answer aaf arg inVars)
      ⟨(addAdmTestClauses satInit inVars outVars aaf grounded).2, pscStart grounded, true⟩)
      (fun r w' => (match r with
        | none => arg ∉ aaf.framework.superCore
        | some r => DsidPscPost aaf arg r) ∧ w'.stdout = w.stdout) w :=
  Prog.Total.loop
    (fun st w' => ((∃ R, PscInv aaf inVars outVars st R) ∧ arg ∈ st.psc) ∧ w'.stdout = w.stdout)
    (fun st => st.psc.numberOfElements)
    (fun _ _ ⟨⟨⟨_, h⟩, harg⟩, hw'⟩ => total_dsidRound ω hv h harg hw')
    ⟨⟨⟨_, pscStart_inv hv hg⟩, (mem_pscStart hg).2 hout⟩, rfl⟩

/-- The copying loop is left exactly when the argument is attacked from within the set. -/
theorem keepUnattackedExcept_eq {psc : RaSet n} (harg : arg ∈ psc) :
    keepUnattackedExcept aaf arg psc =
      if arg ∈ keepUnattacked aaf psc then some (keepUnattacked aaf psc) else none := by
  have hfold : ∀ (xs : List (Fin n)) (ideal : RaSet n), xs.foldlM (fun (ideal : RaSet n) i =>
      if (aaf.parents i).any fun j => psc.contains j then
        if i = arg then none else some ideal
      else some (ideal.add i)) ideal =
      if arg ∈ xs ∧ ((aaf.parents arg).any fun j => psc.contains j) = true then none
      else some (xs.foldl (fun ideal i =>
        if !(aaf.parents i).any fun j => psc.contains j then ideal.add i else ideal) ideal) := by
    intro xs
    induction xs with
    | nil => simp
    | cons x xs ih =>
      intro ideal
      rw [List.foldlM_cons, List.foldl_cons]
      by_cases hx : ((aaf.parents x).any fun j => psc.contains j) = true
      · rw [if_pos hx]
        by_cases hxarg : x = arg
        · subst hxarg
          simp [hx]
        · rw [if_neg hxarg, Option.bind_eq_bind, Option.bind_some, ih]
          simp [hx, Ne.symm hxarg]
      · have hiff : (arg ∈ x :: xs ∧ ((aaf.parents arg).any fun j => psc.contains j) = true) ↔
            (arg ∈ xs ∧ ((aaf.parents arg).any fun j => psc.contains j) = true) := by
          rw [List.mem_cons]
          constructor
          · rintro ⟨rfl | h, hany⟩
            · exact absurd hany hx
            · exact ⟨h, hany⟩
          · rintro ⟨h, hany⟩
            exact ⟨.inr h, hany⟩
        rw [if_neg hx, Option.bind_eq_bind, Option.bind_some, ih]
        simp only [hiff, hx, Bool.not_false, if_true]
  have hkeep : arg ∈ keepUnattacked aaf psc ↔
      ¬ ((aaf.parents arg).any fun j => psc.contains j) = true := by
    rw [mem_keepUnattacked]
    simp [harg]
  rw [keepUnattackedExcept, hfold]
  by_cases hany : ((aaf.parents arg).any fun j => psc.contains j) = true
  · rw [if_pos ⟨harg, hany⟩, if_neg fun h => hkeep.1 h hany]
  · rw [if_neg fun h => hany h.2, if_pos (hkeep.2 hany)]
    rfl

/-- A sweep is left exactly when the argument is undefended. -/
theorem total_sweepExcept (I : RaSet n) (harg : arg ∈ I) (w : World) :
    Prog.Total (Prog.loop (sweepStepExcept aaf arg) ⟨0, I, false⟩) (fun r w' => (match r with
      | none => ∀ D ⊆ I.toSet, aaf.framework.SelfDefending D → arg ∉ D
      | some st => (SweepInv aaf I st ∧ st.ideal.elementsArr.length ≤ st.i) ∧ arg ∈ st.ideal) ∧
        w' = w) w := by
  apply Prog.Total.loop (fun st w' => (SweepInv aaf I st ∧ arg ∈ st.ideal) ∧ w' = w)
    (fun st => st.ideal.elementsArr.length - st.i) _ ⟨⟨sweepInv_start I, harg⟩, rfl⟩
  rintro st w' ⟨⟨h, harg⟩, rfl⟩
  rw [sweepStepExcept]
  by_cases hlt : st.i < st.ideal.elementsArr.length
  swap
  · rw [dif_neg hlt]
    exact Prog.total_pure.2 ⟨⟨⟨h, by omega⟩, harg⟩, rfl⟩
  rw [dif_pos hlt]
  dsimp only
  have hmem : st.ideal.elementsArr[st.i] ∈ st.ideal := List.getElem_mem hlt
  split_ifs with hdef heq
  · refine Prog.total_pure.2 ⟨⟨⟨h.advance hlt (isDefended_iff.1 hdef), harg⟩, rfl⟩, ?_⟩
    dsimp only
    omega
  · refine Prog.total_pure.2 ⟨fun D hD hself hargD => hdef ?_, rfl⟩
    rw [isDefended_iff, heq]
    exact (hself arg hargD).mono (h.keeps D hD hself)
  · refine Prog.total_pure.2 ⟨⟨⟨h.remove hmem fun hd => hdef (isDefended_iff.2 hd), ?_⟩, rfl⟩,
      SweepInv.room_lt hlt⟩
    exact RaSet.mem_remove.2 ⟨harg, Ne.symm heq⟩

/-- The sweeps tell whether the argument is in the greatest self-defending subset. -/
theorem total_removeUndefendedExcept (I : RaSet n) (harg : arg ∈ I) (w : World) :
    Prog.Total (removeUndefendedExcept aaf arg I) (fun r w' =>
      (r.isSome = true ↔ ∃ D ⊆ I.toSet, aaf.framework.SelfDefending D ∧ arg ∈ D) ∧ w' = w) w := by
  apply Prog.Total.loop
    (fun ideal w' => ((ideal.toSet ⊆ I.toSet ∧
      ∀ D ⊆ I.toSet, aaf.framework.SelfDefending D → D ⊆ ideal.toSet) ∧ arg ∈ ideal) ∧ w' = w)
    RaSet.numberOfElements _ ⟨⟨⟨subset_rfl, fun D hD _ => hD⟩, harg⟩, rfl⟩
  rintro ideal w' ⟨⟨⟨hsub, hkeeps⟩, harg⟩, rfl⟩
  apply Prog.Total.bind
  apply (total_sweepExcept ideal harg w').mono
  rintro (_ | st) w' ⟨hr, rfl⟩
  · refine Prog.total_pure.2 ⟨iff_of_false (by simp) ?_, rfl⟩
    rintro ⟨D, hD, hself, hargD⟩
    exact hr D (hkeeps D hD hself) hself hargD
  · obtain ⟨⟨h, hend⟩, harg'⟩ := hr
    have hkeeps' : ∀ D ⊆ I.toSet, aaf.framework.SelfDefending D → D ⊆ st.ideal.toSet :=
      fun D hD hself => h.keeps D (hkeeps D hD hself) hself
    dsimp only
    rw [Prog.total_pure]
    split_ifs with hc
    · exact ⟨⟨⟨⟨h.subset.trans hsub, hkeeps'⟩, harg'⟩, rfl⟩, RaSet.numberOfElements_lt (h.changed hc)⟩
    · exact ⟨iff_of_true rfl ⟨st.ideal.toSet, h.subset.trans hsub,
        h.selfDefending hend (Bool.eq_false_iff.2 hc), harg'⟩, rfl⟩

theorem total_answerNo (w : World) : Prog.Total (answerNo doPrint) (fun r _ => r = false) w := by
  apply Prog.Total.bind
  apply (total_report_pure (P := fun _ => True) trivial).mono
  exact fun _ _ _ => Prog.total_pure.2 rfl

/-- An argument left undecided by the grounded labeling is decided as the ideal extension does. -/
theorem total_solveDsid (ω : TotalOracle) (hg : Grounds aaf grounded)
    (hin : arg ∉ aaf.framework.grounded)
    (hout : arg ∉ aaf.framework.attackedBy aaf.framework.grounded) (w : World) :
    Prog.Total (solveDsid ω.answer aaf grounded arg doPrint) (fun r _ =>
      ∀ I, aaf.framework.Ideal I → (r = true ↔ arg ∈ I)) w := by
  have hv := labelVars_numberPairs n Int.one_pos
  have hno : (∀ I, aaf.framework.Ideal I → arg ∉ I) → ∀ w, Prog.Total (answerNo doPrint)
      (fun r _ => ∀ I, aaf.framework.Ideal I → (r = true ↔ arg ∈ I)) w := by
    intro hideal w
    apply (total_answerNo w).mono
    rintro r _ rfl I hI
    exact iff_of_false (by simp) (hideal I hI)
  rw [solveDsid]
  dsimp only
  apply Prog.Total.bind
  apply (total_dsidLoop ω hv hg hout w).mono
  rintro (_ | ⟨psc, onerunonly⟩) w₁ ⟨hpost, -⟩
  · exact hno (fun I hI harg => hpost (hI.1.subset_superCore harg)) w₁
  obtain ⟨hpost, harg⟩ := hpost
  dsimp only
  split_ifs with hone hzero
  · refine hno (fun I hI hargI => hin ?_) w₁
    rwa [(hpost.ideal_grounded hone).1.unique hI]
  · have hnil : psc.elementsArr = [] := List.eq_nil_of_length_eq_zero hzero
    rw [RaSet.mem_def, hnil] at harg
    exact absurd harg List.not_mem_nil
  have hcore : (keepUnattacked aaf psc).toSet = aaf.framework.unattackedCore :=
    toSet_keepUnattacked hpost.superCore
  rw [keepUnattackedExcept_eq harg]
  by_cases hkeep : arg ∈ keepUnattacked aaf psc
  · rw [if_pos hkeep]
    apply Prog.Total.bind
    apply (total_removeUndefendedExcept _ hkeep w₁).mono
    rintro r w₂ ⟨hr, -⟩
    rw [hcore] at hr
    have hideal : ∀ I, aaf.framework.Ideal I → (r.isSome = true ↔ arg ∈ I) := by
      intro I hI
      rw [hr]
      constructor
      · rintro ⟨D, hD, hself, hargD⟩
        exact hI.2 (hself.idealSet hD) hargD
      · intro hargI
        exact ⟨I, hI.1.subset_unattackedCore, hI.1.admissible.defends, hargI⟩
    cases r with
    | none => exact hno (fun I hI hargI => by simpa using (hideal I hI).2 hargI) w₂
    | some ideal =>
      apply Prog.Total.bind
      apply (total_report_pure (P := fun _ => True) trivial).mono
      exact fun _ _ _ => Prog.total_pure.2 fun I hI => hideal I hI
  · rw [if_neg hkeep]
    refine hno (fun I hI hargI => hkeep ?_) w₁
    rw [← RaSet.mem_toSet, hcore]
    exact hI.1.subset_unattackedCore hargI

/-- DS-ID agrees with the computation of the ideal extension, whatever models the solver
finds in either run. -/
theorem solveDsid_iff_mem_computeIdeal (ω υ : TotalOracle) (aaf : AAF n) (arg : Fin n)
    (hin : (computeGrounded aaf).1.labIn.get arg = false)
    (hout : (computeGrounded aaf).1.labOut.get arg = false) (doPrint : Bool) (w v : World) :
    Prog.Total (solveDsid ω.answer aaf (computeGrounded aaf).1 arg doPrint) (fun r _ =>
      Prog.Total (computeIdeal υ.answer aaf (computeGrounded aaf).1)
        (fun ideal _ => r = true ↔ arg ∈ ideal) v) w := by
  have hg := computeGrounded_represents aaf
  have hnotin : arg ∉ aaf.framework.grounded := fun h =>
    Bool.eq_false_iff.1 hin ((hg.in_iff arg).2 h)
  have hnotout : arg ∉ aaf.framework.attackedBy aaf.framework.grounded := fun h =>
    Bool.eq_false_iff.1 hout ((hg.out_iff arg).2 h)
  apply (total_solveDsid ω hg hnotin hnotout w).mono
  intro r _ hr
  apply (total_computeIdeal υ hg v).mono
  intro ideal _ hideal
  exact hr _ hideal.1

def oneSided : AAF 2 :=
  (((AAF.withoutAttacks fun i => toString ((i : ℕ) + 1)).addAttack 0 1).addAttack 1 0).addAttack 1 1

/-- The first argument is in the ideal extension without being grounded. -/
theorem solveDsid_oneSided :
    Prog.Total (solveDsid exhaustive.answer oneSided (computeGrounded oneSided).1 0 true)
      (fun r _ => Prog.Total (computeIdeal exhaustive.answer oneSided (computeGrounded oneSided).1)
        (fun ideal _ => r = true ↔ 0 ∈ ideal) ⟨0, "", true⟩) ⟨0, "", true⟩ :=
  solveDsid_iff_mem_computeIdeal exhaustive exhaustive oneSided 0 (by decide) (by decide) true _ _

end Correctness

end TaasFudge
