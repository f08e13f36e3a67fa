import TaasFudge.Argumentation.Ideal
import TaasFudge.Taas.Grounded
import TaasFudge.Tasks.Reading

/-! # SE-ID

The preferred super-core is what remains when every argument attacked by some
admissible set has been removed; the ideal extension is what remains of its
unattacked part when undefended arguments have been removed.
-/

namespace TaasFudge

open Dimacs

variable {n : ℕ}

/-- The loop over admissible sets: its object, the set `psc` and the flag `onerunonly`. -/
structure PscState (n : ℕ) where
  solver : IpasirSolver
  psc : RaSet n
  onerunonly : Bool

section Program
variable (ω : Oracle) (aaf : AAF n) (grounded : Labeling) (inVars : Fin n → ℤ)

def pscStart : RaSet n :=
  (List.finRange n).foldl (fun (psc : RaSet n) (i : Fin n) =>
    if !grounded.labOut.get i then psc.add i else psc) (RaSet.initEmpty n)

/-- The literals of all attackers of `psc`; the flag tells whether there are none. -/
def addAttackers (psc : RaSet n) (solver : IpasirSolver) : Bool × IpasirSolver :=
  psc.elementsArr.foldl (fun (st : Bool × IpasirSolver) i =>
    (aaf.parents i).foldl (fun (st : Bool × IpasirSolver) j =>
      (false, satAdd st.2 (inVars j))) st) (true, solver)

def removeChildren (solver : IpasirSolver) (psc : RaSet n) : Prog World (RaSet n) :=
  (List.finRange n).foldlM (fun (psc : RaSet n) (i : Fin n) => do
    let pos ← satPos solver (inVars i)
    pure (if pos then (aaf.children i).foldl (fun (psc : RaSet n) j =>
      if psc.contains j then psc.remove j else psc) psc else psc)) psc

def pscRound (st : PscState n) : Prog World (LoopStep (PscState n) (RaSet n × Bool)) := do
  let (emptyclause, solver) := addAttackers aaf inVars st.psc st.solver
  if emptyclause then pure (.exit (st.psc, st.onerunonly))
  else
    let (sat, solver) ← satSolve ω (satAdd solver 0)
    if sat = 20 then pure (.exit (st.psc, st.onerunonly))
    else
      let psc ← removeChildren aaf inVars solver st.psc
      pure (.again ⟨solver, psc, false⟩)

def keepUnattacked (psc : RaSet n) : RaSet n :=
  psc.elementsArr.foldl (fun ideal i =>
    let isAttacked := (aaf.parents i).any fun j => psc.contains j
    if !isAttacked then ideal.add i else ideal) (RaSet.initEmpty n)

def isDefended (ideal : RaSet n) (arg : Fin n) : Bool :=
  (aaf.parents arg).all fun attacker => (aaf.parents attacker).any fun j => ideal.contains j

/-- A sweep over the set: the index, the set and the flag `changed`. -/
structure SweepState (n : ℕ) where
  i : ℕ
  ideal : RaSet n
  changed : Bool

def sweepStep (st : SweepState n) : Prog World (LoopStep (SweepState n) (SweepState n)) :=
  if h : st.i < st.ideal.elementsArr.length then
    let arg := st.ideal.elementsArr[st.i]
    if isDefended aaf st.ideal arg then pure (.again { st with i := st.i + 1 })
    -- the last element moves into the cell, which is visited again
    else pure (.again ⟨st.i, st.ideal.remove arg, true⟩)
  else pure (.exit st)

def removeUndefended (ideal : RaSet n) : Prog World (RaSet n) :=
  Prog.loop (fun ideal => do
    let st ← Prog.loop (sweepStep aaf) ⟨0, ideal, false⟩
    pure (if st.changed then .again st.ideal else .exit st.ideal)) ideal

def copyIn : RaSet n :=
  (grounded.labIn.members n).foldl (fun (ideal : RaSet n) (i : Fin n) =>
    if !grounded.twoValued && grounded.labOut.get i then ideal else ideal.add i)
    (RaSet.initEmpty n)

def computeIdeal : Prog World (RaSet n) := do
  let (inVars, outVars, _) := numberPairs n 1
  let solver := (addAdmTestClauses satInit inVars outVars aaf grounded).2
  let (psc, onerunonly) ← Prog.loop (pscRound ω aaf inVars) ⟨solver, pscStart grounded, true⟩
  if onerunonly then pure (copyIn grounded)
  else if psc.numberOfElements = 0 then pure psc
  else removeUndefended aaf (keepUnattacked aaf psc)

def solveSeid : Prog World Unit := do
  let ideal ← computeIdeal ω aaf grounded
  printf (ideal.printI23 aaf)

end Program

section Psc
variable {aaf : AAF n} {grounded : Labeling} {inVars outVars : Fin n → ℤ}

theorem mem_pscStart (hg : Grounds aaf grounded) {i : Fin n} :
    i ∈ (pscStart grounded : RaSet n) ↔
      i ∉ aaf.framework.attackedBy aaf.framework.grounded := by
  rw [pscStart, ← List.foldl_filter, RaSet.mem_foldl_add, ← hg.out_iff]
  simp

theorem addAttackers_eq (psc : RaSet n) (solver : IpasirSolver) :
    addAttackers aaf inVars psc solver =
      ((psc.elementsArr.flatMap aaf.parents).isEmpty,
        ((psc.elementsArr.flatMap aaf.parents).map inVars).foldl satAdd solver) := by
  rw [addAttackers, ← List.foldl_flatMap, foldl_flagged, Bool.true_and]

/-- The clause of all attackers asks for an attack on `psc`. -/
theorem satisfies_attackers {τ : Assignment} (psc : RaSet n) :
    τ.Satisfies ((psc.elementsArr.flatMap aaf.parents).map inVars) ↔
      (aaf.framework.attackedBy (selected τ inVars) ∩ psc.toSet).Nonempty := by
  rw [Assignment.satisfies_map]
  constructor
  · rintro ⟨j, hj, hτ⟩
    obtain ⟨i, hi, hji⟩ := List.mem_flatMap.1 hj
    exact ⟨i, ⟨j, hτ, hji⟩, hi⟩
  · rintro ⟨i, ⟨j, hτ, hji⟩, hi⟩
    exact ⟨j, List.mem_flatMap.2 ⟨i, hi, hji⟩, hτ⟩

theorem removeChildren_of_sat {solver : IpasirSolver} (h : solver.state = .sat) (psc : RaSet n) :
    removeChildren aaf inVars solver psc =
      pure (((positives solver.model inVars).flatMap aaf.children).foldl RaSet.remove psc) := by
  have hremove : ∀ (psc : RaSet n) (j : Fin n),
      (if psc.contains j then psc.remove j else psc) = psc.remove j := by
    intro psc j
    rw [RaSet.remove]
    split_ifs <;> rfl
  simp only [removeChildren, satPos_of_sat h, pure_bind, List.foldlM_pure, hremove]
  rw [List.foldl_flatMap, positives, List.foldl_filter]

/-- What remains are the members that the set does not attack. -/
theorem mem_removeChildren (hin : ∀ i, 0 < inVars i) {τ : Assignment} {psc : RaSet n} {i : Fin n} :
    i ∈ ((positives τ.model inVars).flatMap aaf.children).foldl RaSet.remove psc ↔
      i ∈ psc ∧ i ∉ aaf.framework.attackedBy (selected τ inVars) := by
  rw [RaSet.mem_foldl_remove, List.mem_flatMap, AAF.mem_attackedBy_iff]
  simp only [mem_positives hin, AAF.mem_children]
  exact and_congr_right fun _ => not_congr (exists_congr fun j => and_comm)

/-- The invariant: the set contains the super-core, and the object still describes every
admissible labelling that attacks it. -/
structure PscInv (aaf : AAF n) (inVars outVars : Fin n → ℤ) (st : PscState n)
    (R : Set (Fin n) × Set (Fin n) → Prop) : Prop where
  describes : st.solver.Describes (labels inVars outVars) R
  sound : ∀ b, R b → aaf.framework.AdmissibleLabelling b.1 b.2
  complete : ∀ b, aaf.framework.AdmissibleLabelling b.1 b.2 →
    (aaf.framework.attackedBy b.1 ∩ st.psc.toSet).Nonempty → R b
  superCore_subset : aaf.framework.superCore ⊆ st.psc.toSet
  onerunonly : st.onerunonly = true →
    ∀ i, i ∈ st.psc ↔ i ∉ aaf.framework.attackedBy aaf.framework.grounded

/-- The loop ends with the super-core; if in its first round, then nothing was removed. -/
structure PscPost (aaf : AAF n) (r : RaSet n × Bool) : Prop where
  superCore : r.1.toSet = aaf.framework.superCore
  onerunonly : r.2 = true → ∀ i, i ∈ r.1 ↔ i ∉ aaf.framework.attackedBy aaf.framework.grounded

/-- When nothing was removed, no admissible set attacks beyond the grounded extension. -/
theorem PscPost.ideal_grounded {r : RaSet n × Bool} (h : PscPost aaf r) (hone : r.2 = true) :
    aaf.framework.Ideal aaf.framework.grounded ∧
      ∀ P, aaf.framework.Preferred P → P = aaf.framework.grounded := by
  refine Framework.ideal_grounded_of_no_attack fun S hS _ b hb => ?_
  by_contra hout
  have hb' : b ∈ aaf.framework.superCore := h.superCore ▸ (h.onerunonly hone b).2 hout
  exact hb' S hS hb

/-- When no admissible labelling attacks the set any more, it is the super-core. -/
theorem PscInv.post {st : PscState n} {R : Set (Fin n) × Set (Fin n) → Prop}
    (h : PscInv aaf inVars outVars st R)
    (hno : ∀ b, R b → ¬ (aaf.framework.attackedBy b.1 ∩ st.psc.toSet).Nonempty) :
    PscPost aaf (st.psc, st.onerunonly) := by
  refine ⟨Set.Subset.antisymm (fun a ha S hS haS => ?_) h.superCore_subset, h.onerunonly⟩
  obtain ⟨P, hSP, hP⟩ := hS.exists_preferred
  have hattack : (aaf.framework.attackedBy P ∩ st.psc.toSet).Nonempty :=
    ⟨a, Framework.attackedBy_mono hSP haS, ha⟩
  exact hno (P, _) (h.complete _ (hP.prop.labelling hP.grounded_subset) hattack) hattack

theorem PscInv.post_of_isEmpty {st : PscState n} {R : Set (Fin n) × Set (Fin n) → Prop}
    (h : PscInv aaf inVars outVars st R)
    (hempty : (st.psc.elementsArr.flatMap aaf.parents).isEmpty = true) :
    PscPost aaf (st.psc, st.onerunonly) := by
  apply h.post
  rintro b - ⟨i, ⟨j, -, hji⟩, hi⟩
  have hj : j ∈ st.psc.elementsArr.flatMap aaf.parents := List.mem_flatMap.2 ⟨i, hi, hji⟩
  rw [List.isEmpty_iff.1 hempty] at hj
  exact List.not_mem_nil hj

/-- The object that searches for an attack on the set. -/
theorem PscInv.describes_attack {st : PscState n} {R : Set (Fin n) × Set (Fin n) → Prop}
    (h : PscInv aaf inVars outVars st R) :
    (st.solver.push ((st.psc.elementsArr.flatMap aaf.parents).map inVars)).Describes
      (labels inVars outVars) fun b =>
        R b ∧ (aaf.framework.attackedBy b.1 ∩ st.psc.toSet).Nonempty :=
  h.describes.push fun _ => satisfies_attackers st.psc

theorem PscInv.remove (hv : LabelVars inVars outVars) {st : PscState n}
    {R : Set (Fin n) × Set (Fin n) → Prop} (h : PscInv aaf inVars outVars st R) {τ : Assignment}
    (hτ : R (labels inVars outVars τ))
    (hatt : (aaf.framework.attackedBy (selected τ inVars) ∩ st.psc.toSet).Nonempty) :
    PscInv aaf inVars outVars
      ⟨(st.solver.push ((st.psc.elementsArr.flatMap aaf.parents).map inVars)).satisfied τ.model,
        ((positives τ.model inVars).flatMap aaf.children).foldl RaSet.remove st.psc, false⟩
      (fun b => R b ∧ (aaf.framework.attackedBy b.1 ∩ st.psc.toSet).Nonempty) ∧
    (((positives τ.model inVars).flatMap aaf.children).foldl RaSet.remove st.psc).numberOfElements <
      st.psc.numberOfElements := by
  have hadm := (h.sound _ hτ).admissible
  refine ⟨⟨h.describes_attack.satisfied τ.model, fun b hb => h.sound b hb.1, ?_, ?_, by simp⟩, ?_⟩
  · rintro b hb ⟨i, hi, hpsc⟩
    have hi' : i ∈ st.psc := ((mem_removeChildren hv.in_pos).1 hpsc).1
    exact ⟨h.complete b hb ⟨i, hi, hi'⟩, i, hi, hi'⟩
  · intro a ha
    exact (mem_removeChildren hv.in_pos).2 ⟨h.superCore_subset ha, ha _ hadm⟩
  · obtain ⟨i, hi, hpsc⟩ := hatt
    apply RaSet.numberOfElements_lt
    refine (Set.ssubset_iff_of_subset fun j hj => ((mem_removeChildren hv.in_pos).1 hj).1).2
      ⟨i, hpsc, fun hi' => ?_⟩
    exact ((mem_removeChildren hv.in_pos).1 hi').2 hi

theorem total_pscRound (ω : TotalOracle) (hv : LabelVars inVars outVars) {st : PscState n}
    {R : Set (Fin n) × Set (Fin n) → Prop} {w₀ w : World} (h : PscInv aaf inVars outVars st R)
    (hw : w.stdout = w₀.stdout) :
    Prog.Total (pscRound ω.answer aaf inVars st) (LoopStep.post
      (fun st' w' => ((∃ R', PscInv aaf inVars outVars st' R') ∧ w'.stdout = w₀.stdout) ∧
        st'.psc.numberOfElements < st.psc.numberOfElements)
      fun r w' => PscPost aaf r ∧ w'.stdout = w₀.stdout) w := by
  rw [pscRound, addAttackers_eq]
  dsimp only
  split_ifs with hempty
  · exact Prog.total_pure.2 ⟨h.post_of_isEmpty hempty, hw⟩
  · rw [satAdd_zero_foldl fun l => ne_zero_of_mem_map hv.in_ne]
    apply Prog.Total.bind
    apply h.describes_attack.total_satSolve ω [] (A := fun _ => True) (fun τ => by simp)
    · rintro τ w₁ ⟨hτ, hatt⟩ - hw₁
      dsimp only
      rw [if_neg (by decide), removeChildren_of_sat rfl, pure_bind, Prog.total_pure]
      obtain ⟨hinv, hlt⟩ := h.remove hv hτ hatt
      exact ⟨⟨⟨_, hinv⟩, hw₁.trans hw⟩, hlt⟩
    · intro w₁ hno hw₁
      dsimp only
      rw [if_pos rfl, Prog.total_pure]
      exact ⟨h.post fun b hb hatt => hno b ⟨hb, hatt⟩ trivial, hw₁.trans hw⟩

theorem pscStart_inv (hv : LabelVars inVars outVars) (hg : Grounds aaf grounded) :
    PscInv aaf inVars outVars
      ⟨(addAdmTestClauses satInit inVars outVars aaf grounded).2, pscStart grounded, true⟩
      fun b => aaf.framework.AdmissibleLabelling b.1 b.2 where
  describes := (addAdmTestClauses_encodes hv hg).describes hv
  sound _ hb := hb
  complete _ hb _ := hb
  superCore_subset _ ha := (mem_pscStart hg).2 (ha _ Framework.grounded_complete.admissible)
  onerunonly _ _ := mem_pscStart hg

theorem total_pscLoop (ω : TotalOracle) (hv : LabelVars inVars outVars) (hg : Grounds aaf grounded)
    (w : World) :
    Prog.Total (Prog.loop (pscRound ω.answer aaf inVars)
      ⟨(addAdmTestClauses satInit inVars outVars aaf grounded).2, pscStart grounded, true⟩)
      (fun r w' => PscPost aaf r ∧ w'.stdout = w.stdout) w :=
  Prog.Total.loop
    (fun st w' => (∃ R, PscInv aaf inVars outVars st R) ∧ w'.stdout = w.stdout)
    (fun st => st.psc.numberOfElements)
    (fun _ _ ⟨⟨_, h⟩, hw'⟩ => total_pscRound ω hv h hw') ⟨⟨_, pscStart_inv hv hg⟩, rfl⟩

end Psc

section Sweep
variable {aaf : AAF n} {psc : RaSet n}

theorem isDefended_iff {ideal : RaSet n} {arg : Fin n} :
    isDefended aaf ideal arg = true ↔ aaf.framework.Defends ideal.toSet arg := by
  simp only [isDefended, List.all_eq_true, List.any_eq_true, RaSet.contains_iff,
    Framework.Defends, AAF.attacks_iff, AAF.mem_attackedBy_iff, RaSet.mem_toSet]

theorem mem_keepUnattacked {i : Fin n} :
    i ∈ keepUnattacked aaf psc ↔ i ∈ psc ∧ ∀ j, aaf.framework.attacks j i → j ∉ psc := by
  rw [keepUnattacked, ← List.foldl_filter, RaSet.mem_foldl_add, List.mem_filter]
  simp [← RaSet.mem_def]

theorem toSet_keepUnattacked (h : psc.toSet = aaf.framework.superCore) :
    (keepUnattacked aaf psc).toSet = aaf.framework.unattackedCore := by
  ext i
  rw [RaSet.mem_toSet, mem_keepUnattacked, Framework.unattackedCore, ← h]
  rfl

/-- The invariant of a sweep over `I`: no self-defending subset loses a member, and as long
as nothing has changed all visited members are defended. -/
structure SweepInv (aaf : AAF n) (I : RaSet n) (st : SweepState n) : Prop where
  subset : st.ideal.toSet ⊆ I.toSet
  keeps : ∀ D ⊆ I.toSet, aaf.framework.SelfDefending D → D ⊆ st.ideal.toSet
  changed : st.changed = true → st.ideal.toSet ⊂ I.toSet
  visited : st.changed = false → ∀ k (hk : k < st.ideal.elementsArr.length), k < st.i →
    aaf.framework.Defends st.ideal.toSet st.ideal.elementsArr[k]

theorem SweepInv.remove {I : RaSet n} {st : SweepState n} (h : SweepInv aaf I st) {arg : Fin n}
    (harg : arg ∈ st.ideal) (hdef : ¬ aaf.framework.Defends st.ideal.toSet arg) :
    SweepInv aaf I ⟨st.i, st.ideal.remove arg, true⟩ := by
  have hsub : (st.ideal.remove arg).toSet ⊆ st.ideal.toSet := fun j hj => (RaSet.mem_remove.1 hj).1
  refine ⟨hsub.trans h.subset, fun D hD hself j hj => ?_, fun _ => ?_, nofun⟩
  · refine RaSet.mem_remove.2 ⟨h.keeps D hD hself hj, ?_⟩
    rintro rfl
    exact hdef ((hself j hj).mono (h.keeps D hD hself))
  · refine (Set.ssubset_iff_of_subset (hsub.trans h.subset)).2 ⟨arg, h.subset harg, fun hmem => ?_⟩
    exact (RaSet.mem_remove.1 hmem).2 rfl

theorem sweepInv_start (I : RaSet n) : SweepInv aaf I ⟨0, I, false⟩ :=
  ⟨subset_rfl, fun _ hD _ => hD, by simp, by simp⟩

/-- A defended member stays, and the next cell is visited. -/
theorem SweepInv.advance {I : RaSet n} {st : SweepState n} (h : SweepInv aaf I st)
    (hlt : st.i < st.ideal.elementsArr.length)
    (hdef : aaf.framework.Defends st.ideal.toSet st.ideal.elementsArr[st.i]) :
    SweepInv aaf I { st with i := st.i + 1 } := by
  refine ⟨h.subset, h.keeps, h.changed, fun hc k hk hki => ?_⟩
  rcases Nat.lt_succ_iff_lt_or_eq.1 hki with hki | rfl
  · exact h.visited hc k hk hki
  · exact hdef

theorem SweepInv.room_lt {st : SweepState n} (hlt : st.i < st.ideal.elementsArr.length) :
    (st.ideal.remove st.ideal.elementsArr[st.i]).elementsArr.length - st.i <
      st.ideal.elementsArr.length - st.i := by
  have hmem : st.ideal.elementsArr[st.i] ∈ st.ideal := List.getElem_mem hlt
  have hlen := RaSet.numberOfElements_remove hmem
  simp only [RaSet.numberOfElements] at hlen
  omega

theorem total_sweep (I : RaSet n) (w : World) :
    Prog.Total (Prog.loop (sweepStep aaf) ⟨0, I, false⟩) (fun st w' =>
      (SweepInv aaf I st ∧ st.ideal.elementsArr.length ≤ st.i) ∧ w' = w) w := by
  apply Prog.Total.loop (fun st w' => SweepInv aaf I st ∧ w' = w)
    (fun st => st.ideal.elementsArr.length - st.i) _ ⟨sweepInv_start I, rfl⟩
  rintro st w' ⟨h, rfl⟩
  rw [sweepStep]
  by_cases hlt : st.i < st.ideal.elementsArr.length
  swap
  · rw [dif_neg hlt]
    exact Prog.total_pure.2 ⟨⟨h, by omega⟩, rfl⟩
  rw [dif_pos hlt]
  dsimp only
  have hmem : st.ideal.elementsArr[st.i] ∈ st.ideal := List.getElem_mem hlt
  split_ifs with hdef
  · refine Prog.total_pure.2 ⟨⟨h.advance hlt (isDefended_iff.1 hdef), rfl⟩, ?_⟩
    dsimp only
    omega
  · exact Prog.total_pure.2 ⟨⟨h.remove hmem fun hd => hdef (isDefended_iff.2 hd), rfl⟩,
      SweepInv.room_lt hlt⟩

/-- After a sweep without a change all members are defended. -/
theorem SweepInv.selfDefending {I : RaSet n} {st : SweepState n} (h : SweepInv aaf I st)
    (hend : st.ideal.elementsArr.length ≤ st.i) (hc : st.changed = false) :
    aaf.framework.SelfDefending st.ideal.toSet := by
  intro i hi
  obtain ⟨k, hk, rfl⟩ := List.mem_iff_getElem.1 (RaSet.mem_def.1 hi)
  exact h.visited hc k hk (by omega)

theorem total_removeUndefended (I : RaSet n) (w : World) :
    Prog.Total (removeUndefended aaf I) (fun r w' =>
      IsGreatest {S | S ⊆ I.toSet ∧ aaf.framework.SelfDefending S} r.toSet ∧ w' = w) w := by
  refine Prog.Total.loop
    (fun ideal w' => (ideal.toSet ⊆ I.toSet ∧
      ∀ D ⊆ I.toSet, aaf.framework.SelfDefending D → D ⊆ ideal.toSet) ∧ w' = w)
    RaSet.numberOfElements ?_ ⟨⟨subset_rfl, fun D hD _ => hD⟩, rfl⟩
  rintro ideal w' ⟨⟨hsub, hkeeps⟩, rfl⟩
  refine Prog.Total.bind ((total_sweep ideal w').mono ?_)
  rintro st w' ⟨⟨h, hend⟩, rfl⟩
  rw [Prog.total_pure]
  have hkeeps' : ∀ D ⊆ I.toSet, aaf.framework.SelfDefending D → D ⊆ st.ideal.toSet :=
    fun D hD hself => h.keeps D (hkeeps D hD hself) hself
  split_ifs with hc
  · exact ⟨⟨⟨h.subset.trans hsub, hkeeps'⟩, rfl⟩, RaSet.numberOfElements_lt (h.changed hc)⟩
  · exact ⟨⟨⟨h.subset.trans hsub, h.selfDefending hend (Bool.eq_false_iff.2 hc)⟩,
      fun D hD => hkeeps' D hD.1 hD.2⟩, rfl⟩

end Sweep

section Correctness
variable {aaf : AAF n} {grounded : Labeling}

theorem toSet_copyIn {S O : Set (Fin n)} (h : grounded.Represents S O) (hd : ∀ i ∈ S, i ∉ O) :
    (copyIn grounded : RaSet n).toSet = S := by
  have hprinted : (copyIn grounded : RaSet n) =
      (grounded.printed n).foldl RaSet.add (RaSet.initEmpty n) := by
    rw [copyIn, Labeling.printed, List.foldl_filter]
    congr 1
    funext ideal i
    rcases grounded.twoValued <;> rcases grounded.labOut.get i <;> rfl
  ext i
  rw [hprinted, RaSet.mem_toSet, RaSet.mem_foldl_add, (h.printed_lists hd).mem_iff]
  simp

theorem total_computeIdeal (ω : TotalOracle) (hg : Grounds aaf grounded) (w : World) :
    Prog.Total (computeIdeal ω.answer aaf grounded) (fun ideal w' =>
      aaf.framework.Ideal ideal.toSet ∧ w'.stdout = w.stdout) w := by
  have hv := labelVars_numberPairs n Int.one_pos
  rcases hnp : numberPairs n 1 with ⟨inVars, outVars, idx⟩
  simp only [hnp] at hv
  rw [computeIdeal, hnp]
  dsimp only
  refine Prog.Total.bind ((total_pscLoop ω hv hg w).mono ?_)
  rintro ⟨psc, onerunonly⟩ w₁ ⟨hpost, hw₁⟩
  dsimp only
  have hdisj : ∀ i ∈ aaf.framework.grounded, i ∉ aaf.framework.attackedBy aaf.framework.grounded :=
    fun i hi ho => Framework.grounded_complete.notMem_of_grounded_attacks ho hi
  split_ifs with hone hzero
  · rw [Prog.total_pure, toSet_copyIn hg hdisj]
    exact ⟨(hpost.ideal_grounded hone).1, hw₁⟩
  · rw [Prog.total_pure]
    have hempty : psc.toSet = ∅ := by
      ext i
      simp [RaSet.mem_def, List.eq_nil_of_length_eq_zero hzero]
    refine ⟨Framework.ideal_of_greatest ?_, hw₁⟩
    rw [hempty]
    refine ⟨⟨Set.empty_subset _, nofun⟩, fun S hS i hi => ?_⟩
    have := (hS.1 hi).1
    rwa [← hpost.superCore, hempty] at this
  · refine (total_removeUndefended (keepUnattacked aaf psc) w₁).mono ?_
    rintro ideal w' ⟨h, rfl⟩
    rw [toSet_keepUnattacked hpost.superCore] at h
    exact ⟨Framework.ideal_of_greatest h, hw₁⟩

/-- The set computed from the grounded labelling is the ideal extension. -/
theorem computeIdeal_ideal (ω : TotalOracle) (aaf : AAF n) (w : World) :
    Prog.Total (computeIdeal ω.answer aaf (computeGrounded aaf).1)
      (fun ideal _ => aaf.framework.Ideal ideal.toSet) w :=
  (total_computeIdeal ω (computeGrounded_represents aaf) w).mono fun _ _ h => h.1

end Correctness

end TaasFudge
