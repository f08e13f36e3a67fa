import TaasFudge.Program.Cost
import TaasFudge.Taas.WitnessLines
import TaasFudge.Tasks.Complete
import TaasFudge.Tasks.OpenModels

/-! # The sets that the tasks show

Which set is shown depends on the models that the solver finds. A solver that prefers
one of the possible sets leads to it.
-/

namespace TaasFudge

open Dimacs Framework

variable {n : ℕ}

section Preferences
variable {ω : TotalOracle} {preference : Set (Fin n) → Assignment → Prop}
  {P : Set (Fin n) → Prop} {E : Set (Fin n)} {s : Shown n} {o : Option (Shown n)}

/-- What is shown, if anything, satisfies `P`, and is the set that the solver prefers. -/
structure Held (ω : TotalOracle) (preference : Set (Fin n) → Assignment → Prop)
    (P : Set (Fin n) → Prop) (o : Option (Shown n)) : Prop where
  sound : ∀ s, o = some s → P s.set
  complete : ∀ E, P E → ω.Prefers (preference E) → ∃ s, o = some s ∧ s.set = E

theorem held_none (h : ∀ E, ¬ P E) : Held ω preference P none :=
  ⟨nofun, fun E hE => absurd hE (h E)⟩

theorem held_some (h : P s.set) (heq : ∀ E, P E → ω.Prefers (preference E) → s.set = E) :
    Held ω preference P (some s) := by
  refine ⟨?_, fun E hE hω => ⟨s, rfl, heq E hE hω⟩⟩
  rintro _ ⟨⟩
  exact h

/-- A set that is the only one needs no preference. -/
theorem held_unique (h : ∀ E, P E ↔ E = s.set) : Held ω preference P (some s) :=
  held_some ((h _).2 rfl) fun E hE _ => ((h E).1 hE).symm

theorem Held.congr {P' : Set (Fin n) → Prop} (h : Held ω preference P o)
    (hP : ∀ E, P E ↔ P' E) : Held ω preference P' o := by
  rwa [← funext fun E => propext (hP E)]

def LabelsAs (F : Framework (Fin n)) (E : Set (Fin n)) (τ : Assignment) : Prop :=
  labels (numberPairs n 1).1 (numberPairs n 1).2.1 τ = (E, F.attackedBy E)

def SelectsAs (E : Set (Fin n)) (τ : Assignment) : Prop := selected τ (numberVars n 1).1 = E

theorem LabelsAs.selected_eq {F : Framework (Fin n)} {τ : Assignment} (h : LabelsAs F E τ) :
    selected τ (numberPairs n 1).1 = E := congrArg Prod.fst h

theorem held_model {solver : IpasirSolver} {vars : Fin n → ℤ} {τ : Assignment}
    (hpos : ∀ i, 0 < vars i) (h : P (selected τ vars))
    (heq : ∀ E, P E → ω.Prefers (preference E) → selected τ vars = E) (spelling : Spelling) :
    Held ω preference P (some ((solver.satisfied τ.model).shown vars spelling)) := by
  have hset : ((solver.satisfied τ.model).shown vars spelling).set = selected τ vars :=
    Set.ext fun i => (lists_positives hpos).2 i
  apply held_some
  · rwa [hset]
  · rwa [hset]

end Preferences

section Searches
variable {ω : TotalOracle} {preference : Set (Fin n) → Assignment → Prop}
  {P : Set (Fin n) → Prop} {β : Type} {π : Assignment → β} {R A : β → Prop}
  {solver : IpasirSolver} {vars : Fin n → ℤ} {aaf : AAF n} {grounded : Labeling} {arg : Fin n}

/-- A search that shows what it finds can show every set it is about. -/
theorem total_searchShown_held (h : solver.Describes π R) (ls : List ℤ) (set : β → Set (Fin n))
    (lab : Set (Fin n) → β)
    (hA : ∀ τ : Assignment, (∀ l ∈ ls, τ.lit l = true) ↔ A (π τ)) (hpos : ∀ i, 0 < vars i)
    (hset : ∀ τ, selected τ vars = set (π τ)) (hsound : ∀ b, R b → A b → P (set b))
    (hlab : ∀ E, P E → (R (lab E) ∧ A (lab E)) ∧ set (lab E) = E) (yes : Bool) (w : World) :
    Prog.Total (searchShown ω.answer (solver.assumeAll ls) vars yes)
      (fun o _ => Held ω (fun E τ => π τ = lab E) P o) w := by
  rw [searchShown]
  apply Prog.Total.bind
  apply h.total_picked ω ls hA
  · intro τ hτ hAτ hpick
    dsimp only
    rw [if_neg (by decide)]
    apply Prog.total_atomic_bind.2
    apply Prog.total_pure.2
    apply held_model hpos
    · rw [hset]
      exact hsound _ hτ hAτ
    · intro E hE hω
      obtain ⟨⟨hR, hAE⟩, heq⟩ := hlab E hE
      rw [hset, hpick _ _ hω hR hAE fun _ h => h, heq]
  · intro hno
    dsimp only
    rw [if_pos rfl]
    apply Prog.total_atomic_bind.2
    apply Prog.total_pure.2
    exact held_none fun E hE => hno _ (hlab E hE).1.1 (hlab E hE).1.2

theorem total_dccoShown (ω : TotalOracle) (hg : Grounds aaf grounded) (w : World) :
    Prog.Total (dccoShown ω.answer aaf grounded arg) (fun o _ => Held ω (LabelsAs aaf.framework)
      (fun E => aaf.framework.Complete E ∧ arg ∈ E) o) w := by
  have hv := labelVars_numberPairs n Int.one_pos
  have hdesc := addComTestClauses_describes hv hg
  rw [dccoShown]
  dsimp only
  rw [satAssume_of_closed hdesc.closed, pure_bind]
  apply total_searchShown_held hdesc [(numberPairs n 1).1 arg] Prod.fst (fun E => (E, _))
    (A := fun b => arg ∈ b.1) (fun τ => by simp) hv.in_pos fun _ => rfl
  · exact fun b hb harg => ⟨hb.complete, harg⟩
  · exact fun E hE => ⟨⟨hE.1.labelling, hE.2⟩, rfl⟩

theorem total_dcstShown (ω : TotalOracle) (hg : Grounds aaf grounded) (w : World) :
    Prog.Total (dcstShown ω.answer aaf grounded arg) (fun o _ => Held ω SelectsAs
      (fun E => aaf.framework.Stable E ∧ arg ∈ E) o) w := by
  have hpos := numberVars_pos n
  have hdesc := addStbTestClauses_describes hpos (numberVars_injective n) hg
  rw [dcstShown]
  dsimp only
  rw [satAssume_of_closed hdesc.closed, pure_bind]
  apply total_searchShown_held hdesc [(numberVars n 1).1 arg] id id
    (A := fun E => arg ∈ E) (fun τ => by simp) hpos fun _ => rfl
  · exact fun E hE harg => ⟨hE, harg⟩
  · exact fun E hE => ⟨hE, rfl⟩

theorem total_sestShown (ω : TotalOracle) (hg : Grounds aaf grounded) (w : World) :
    Prog.Total (sestShown ω.answer aaf grounded)
      (fun o _ => Held ω SelectsAs aaf.framework.Stable o) w := by
  have hpos := numberVars_pos n
  have hdesc := addStbTestClauses_describes hpos (numberVars_injective n) hg
  rw [sestShown]
  apply Prog.Total.bind
  apply hdesc.total_picked ω [] (A := fun _ => True) (fun τ => by simp)
  · intro τ hτ _ hpick
    dsimp only
    rw [if_neg (by decide)]
    apply Prog.total_pure.2
    apply held_model hpos hτ
    exact fun E hE hω => hpick _ E hω hE trivial fun _ h => h
  · intro hno
    dsimp only
    rw [if_pos rfl]
    apply Prog.total_atomic_bind.2
    apply Prog.total_pure.2
    exact held_none fun E hE => hno E hE trivial

theorem total_dsstShown (ω : TotalOracle) (hg : Grounds aaf grounded) (w : World) :
    Prog.Total (dsstShown ω.answer aaf grounded arg) (fun o _ => Held ω SelectsAs
      (fun E => aaf.framework.Stable E ∧ arg ∉ E) o) w := by
  have hpos := numberVars_pos n
  have hdesc := addStbTestClauses_describes hpos (numberVars_injective n) hg
  rw [dsstShown]
  apply Prog.Total.bind
  apply hdesc.total_picked ω [] (A := fun _ => True) (fun τ => by simp)
  · intro τ hτ _ hpick
    dsimp only
    rw [if_neg (by decide)]
    by_cases hin : grounded.labIn.get arg = true
    · have harg := (hg.in_iff arg).1 hin
      rw [if_pos hin]
      apply Prog.total_atomic_bind.2
      apply Prog.total_pure.2
      exact held_none fun E hE => hE.2 (hE.1.complete.grounded_subset harg)
    rw [if_neg hin]
    by_cases hout : grounded.labOut.get arg = true
    · have harg := (hg.out_iff arg).1 hout
      rw [if_pos hout]
      apply Prog.total_atomic_bind.2
      apply Prog.total_pure.2
      apply held_model hpos ⟨hτ, hτ.complete.notMem_of_grounded_attacks harg⟩
      exact fun E hE hω => hpick _ E hω hE.1 trivial fun _ h => h
    · have hdesc' := hdesc.satisfied τ.model
      rw [if_neg hout, satAssume_of_closed hdesc'.closed, pure_bind]
      apply total_searchShown_held hdesc' [-(numberVars n 1).1 arg] id id
        (A := fun E => arg ∉ E) _ hpos fun _ => rfl
      · exact fun E hE harg => ⟨hE, harg⟩
      · exact fun E hE => ⟨hE, rfl⟩
      · intro υ
        rw [List.forall_mem_singleton, υ.lit_neg (hpos arg), mem_selected, Bool.not_eq_true',
          Bool.not_eq_true]
  · intro hno
    dsimp only
    rw [if_pos rfl]
    apply Prog.total_atomic_bind.2
    apply Prog.total_pure.2
    exact held_none fun E hE => hno E hE.1 trivial

end Searches

section Climbing
variable {ω : TotalOracle} {aaf : AAF n} {grounded : Labeling} {arg : Fin n} {E : Set (Fin n)}
  {L : Set (Fin n) → Set (Fin n) → Prop} {f : Set (Fin n) → Set (Fin n) → Set (Fin n)}

/-- A first model that labels a greatest set stops the climb. -/
theorem LabelsAs.stopCube {F : Framework (Fin n)} {τ : Assignment} (h : LabelsAs F E τ)
    (hcube : StopCube L f E E (F.attackedBy E) (F.attackedBy E)) :
    StopCube L f (certain τ.model (numberPairs n 1).1) (possible τ.model (numberPairs n 1).1)
      (certain τ.model (numberPairs n 1).2.1) (possible τ.model (numberPairs n 1).2.1) := by
  have hv := labelVars_numberPairs n Int.one_pos
  have hout : selected τ (numberPairs n 1).2.1 = F.attackedBy E := congrArg Prod.snd h
  rwa [certain_model hv.in_pos, possible_model hv.in_pos, certain_model hv.out_pos,
    possible_model hv.out_pos, h.selected_eq, hout]

theorem total_seprShown_stop (hg : Grounds aaf grounded) (hE : aaf.framework.Preferred E)
    (hω : ω.Prefers (LabelsAs aaf.framework E)) (w : World) :
    Prog.Total (seprShown ω.answer aaf grounded none) (fun s _ => s.set = E) w := by
  have hinit : ∀ s ∈ (none : Option (RaSet n)), aaf.framework.Admissible s.toSet := by simp
  have hsound := total_seprShown_preferred ω hg hinit w
  by_cases htotal : aaf.framework.GroundedTotal
  · apply hsound.mono
    rintro s _ ⟨⟨hs, -⟩, -⟩
    rw [htotal.preferred_iff.1 hs, htotal.preferred_iff.1 hE]
  obtain rfl | hne := E.eq_empty_or_nonempty
  · apply hsound.mono
    rintro s _ ⟨⟨hs, -⟩, -⟩
    exact (hE.eq_of_subset hs.prop (Set.empty_subset _)).symm
  have hv := labelVars_numberPairs n Int.one_pos
  have henc := addAdmTestClauses_encodes hv hg
  have hdesc := henc.describes hv
  have heq := henc.eq satInit
  rw [heq] at hdesc
  simp only [seprShown, heq]
  rw [if_neg fun hall => htotal ((allGrounded_iff hg).1 hall)]
  have hcube : StopCube aaf.framework.AdmissibleLabelling inSet E E (aaf.framework.attackedBy E)
      (aaf.framework.attackedBy E) :=
    .of_greatest (hE.prop.labelling hE.grounded_subset) hne
      fun S T hST hsub => (hE.eq_of_subset hST.admissible hsub).symm.subset
  have hstart := (seprClimb_start (M := fun _ => True) hv hdesc).climb
  have hempty : (seprStart (numberPairs n 1).1 (satInit.pushAll _) none).admSet.toSet = ∅ :=
    Set.eq_empty_of_subset_empty hstart.kept_subset
  obtain ⟨τ, hτ, hlabels⟩ := hstart.describes.exists_preferred_answer hω
    (hempty ▸ hcube.climbs_start) (fun _ h => h) w.calls
  apply Prog.Total.bind
  apply (total_seprLoop_stop hv hdesc hτ (hlabels.stopCube hcube)).mono
  intro s w' hs
  apply Prog.total_pure.2
  rw [RaSet.shown_set, hs, certain_model hv.in_pos, hlabels.selected_eq]

theorem total_seprShown_held (ω : TotalOracle) (hg : Grounds aaf grounded) (w : World) :
    Prog.Total (seprShown ω.answer aaf grounded none) (fun s _ =>
      Held ω (LabelsAs aaf.framework) aaf.framework.Preferred (some s)) w := by
  apply ((total_seprShown_preferred ω hg (by simp) w).and_forall
    (C := fun E => aaf.framework.Preferred E ∧ ω.Prefers (LabelsAs aaf.framework E))
    fun E hE => total_seprShown_stop hg hE.1 hE.2 w).mono
  rintro s w' ⟨⟨⟨hs, -⟩, -⟩, hall⟩
  exact held_some hs fun E hE hω => hall E ⟨hE, hω⟩

variable {task : RangeTask n} {Ext : Set (Fin n) → Prop}

/-- SE-SST and SE-STG with a solver that prefers an extension. -/
theorem total_seRangeShown_stop (hc : task.Correct aaf grounded L Ext) (hg : Grounds aaf grounded)
    (hE : Ext E) (hω : ω.Prefers (LabelsAs aaf.framework E)) (w : World) :
    Prog.Total (seRangeShown ω.answer aaf grounded task.encode) (fun s _ => s.set = E) w := by
  have hsound := total_seRangeShown_ext ω hc hg ⟨E, hE⟩ w
  by_cases htotal : aaf.framework.GroundedTotal
  · apply hsound.mono
    rintro s _ ⟨hs, -⟩
    rw [(hc.of_total htotal _).1 hs, (hc.of_total htotal _).1 hE]
  obtain hempty | hne := (labelled E (aaf.framework.attackedBy E)).eq_empty_or_nonempty
  · apply hsound.mono
    rintro s _ ⟨hs, -⟩
    have hmax := hc.semantics.ext_max hE (hc.semantics.labelling_of_ext hs)
      (hempty.subset.trans (Set.empty_subset _))
    rw [Set.subset_empty_iff.1 (Set.subset_union_left.trans (hmax.trans hempty.subset)),
      Set.subset_empty_iff.1 (Set.subset_union_left.trans hempty.subset)]
  have hv := labelVars_numberPairs n Int.one_pos
  obtain ⟨cs, henc⟩ := hc.encodes hv
  have hdesc := henc.describes hv
  have heq := henc.eq satInit
  rw [heq] at hdesc
  simp only [seRangeShown, heq]
  rw [if_neg fun hall => htotal ((allGrounded_iff hg).1 hall), seRangeStart_eq hv]
  have hcube : StopCube L labelled E E (aaf.framework.attackedBy E) (aaf.framework.attackedBy E) :=
    .of_greatest (hc.semantics.labelling_of_ext hE) hne
      fun S T hST hsub => hc.semantics.ext_max hE hST hsub
  have hstart := (seRangeInv_start (M := fun _ => True) hdesc).climb
  have hempty : (seRangeStart (numberPairs n 1).1 (numberPairs n 1).2.1
      (satInit.pushAll cs)).notUndec.toSet = ∅ := Set.eq_empty_of_subset_empty hstart.kept_subset
  obtain ⟨τ, hτ, hlabels⟩ := hstart.describes.exists_preferred_answer hω
    (hempty ▸ hcube.climbs_start) (fun _ h => h) w.calls
  apply Prog.Total.bind
  apply (total_seRangeLoop_stop hv hdesc hτ (hlabels.stopCube hcube)).mono
  intro s w' hs
  apply Prog.total_pure.2
  rw [RaSet.shown_set, hs, certain_model hv.in_pos, hlabels.selected_eq]

theorem total_seRangeShown_held (ω : TotalOracle) (hc : task.Correct aaf grounded L Ext)
    (hg : Grounds aaf grounded) (hex : ∃ E, Ext E) (w : World) :
    Prog.Total (seRangeShown ω.answer aaf grounded task.encode) (fun s _ =>
      Held ω (LabelsAs aaf.framework) Ext (some s)) w := by
  apply ((total_seRangeShown_ext ω hc hg hex w).and_forall
    (C := fun E => Ext E ∧ ω.Prefers (LabelsAs aaf.framework E))
    fun E hE => total_seRangeShown_stop hc hg hE.1 hE.2 w).mono
  rintro s w' ⟨⟨hs, -⟩, hall⟩
  exact held_some hs fun E hE hω => hall E ⟨hE, hω⟩

end Climbing

section Dspr
variable {aaf : AAF n} {grounded : Labeling} {arg : Fin n}

/-- The extension that is enlarged to a witness is the one preferred. -/
theorem DsprPicks.eq {ω : TotalOracle} {τ : Assignment} {E S : Set (Fin n)}
    (h : DsprPicks ω aaf arg (numberPairs n 1).1 (numberPairs n 1).2.1 τ)
    (hω : ω.Prefers (LabelsAs aaf.framework E)) (hE : aaf.framework.Dissents arg E)
    (hS : aaf.framework.Admissible S) (hsub : selected τ (numberPairs n 1).1 ⊆ S) : S = E := by
  have hlabels : LabelsAs aaf.framework E τ := h _ E hω hE fun _ h => h
  rw [hlabels.selected_eq] at hsub
  exact (hE.preferred.eq_of_subset hS hsub).symm

theorem total_dsprShown (ω : TotalOracle) (hg : Grounds aaf grounded) (w : World) :
    Prog.Total (dsprShown ω.answer aaf grounded arg) (fun o _ => Held ω (LabelsAs aaf.framework)
      (aaf.framework.Dissents arg) o) w := by
  rw [dsprShown]
  apply total_dsprWith ω hg
  · intro w' hnot _
    apply Prog.total_atomic_bind.2
    apply Prog.Total.bind
    apply (total_seprShown_held ω hg _).mono
    intro s _ hs
    apply Prog.total_pure.2
    apply hs.congr
    intro E
    refine ⟨fun hE => ⟨hE, hnot E hE, ?_⟩, fun hE => hE.preferred⟩
    -- no admissible set contains the argument
    rintro ⟨T, hT, hargT⟩ -
    obtain ⟨P, hTP, hP⟩ := hT.exists_preferred
    exact absurd (hTP hargT) (hnot P hP)
  · intro solver τ w' hstate hmodel hno hpicks _
    have hin := (labelVars_numberPairs n Int.one_pos).in_pos
    apply Prog.total_atomic_bind.2
    rw [← bind_assoc]
    apply Prog.Total.bind
    apply (total_dspr_witness ω hg hin hstate hmodel hno _).mono
    rintro s _ ⟨⟨hpref, hsub⟩, -⟩
    apply Prog.total_pure.2
    apply held_some
    · refine ⟨hpref, hno.outside _ hpref hsub, fun _ hex => ?_⟩
      obtain ⟨S, hS, hattacked⟩ := hex
      obtain hattacks | hnone := hno.attacks
      · exact Framework.attackedBy_mono hsub hattacks
      · exact absurd hattacked (hnone S hS)
    · exact fun E hE hω => hpicks.eq hω hE hpref.prop hsub
  · intro w' hscep _
    apply Prog.total_atomic_bind.2
    apply Prog.total_pure.2
    exact held_none fun E hE => hE.notMem (hscep E hE.preferred)

end Dspr

section Range
variable {ω : TotalOracle} {aaf : AAF n} {grounded : Labeling} {arg : Fin n}
  {task : RangeTask n} {L : Set (Fin n) → Set (Fin n) → Prop} {Ext : Set (Fin n) → Prop}
  {inVars outVars : Fin n → ℤ} {E : Set (Fin n)}

/-- The inner loop ends at once when no labelling is left for its object. -/
theorem total_rangeInnerWith_exhausted (hv : LabelVars inVars outVars) {γ : Type}
    {found : RaSet n → Prog World γ} {solver : IpasirSolver} {st : RangeState n}
    {R : Set (Fin n) × Set (Fin n) → Prop} (h : st.inner.Describes (labels inVars outVars) R)
    (hno : ∀ b, ¬ R b) {Q : Option γ × IpasirSolver → World → Prop} {w : World}
    (hfound : ∀ w', w'.protocolOk = w.protocolOk →
      Prog.Total (found st.inArg) (fun c w'' => Q (some c, solver) w'') w') :
    Prog.Total (Prog.loop (rangeInnerWith ω.answer task arg inVars outVars found solver) st)
      Q w := by
  apply Prog.Total.loop_once
  rw [rangeInnerWith, satAssume_of_closed h.closed, pure_bind]
  apply Prog.Total.bind
  apply h.total_refuted [task.literal arg inVars] (A := fun b => task.Meets arg b.1)
    (task.lit_literal hv) fun b hb => absurd hb (hno b)
  dsimp only
  rw [if_pos rfl]
  apply Prog.Total.bind
  apply h.refuted.total_refuted [] (A := fun _ => True) (fun τ => by simp)
    fun b hb => absurd hb (hno b)
  dsimp only
  rw [if_pos rfl]
  apply Prog.Total.bind
  apply (hfound _ _).mono
  · exact fun c w' hc => Prog.total_pure.2 hc
  · rfl

/-- With a solver that prefers an extension as sought the first labelling is the last. -/
theorem total_rangeOuterWith_stop (hc : task.Correct aaf grounded L Ext) (hE : Ext E)
    (hmeets : task.Meets arg E) (hω : ω.Prefers (LabelsAs aaf.framework E)) {γ : Type}
    {found : RaSet n → Prog World γ} {notFound : Prog World γ} {solver : IpasirSolver}
    (h : solver.Describes (labels (numberPairs n 1).1 (numberPairs n 1).2.1) fun b => L b.1 b.2)
    {Q : γ → World → Prop} {w : World}
    (hfound : ∀ (s : RaSet n) w', s.toSet = E → w'.protocolOk = w.protocolOk →
      Prog.Total (found s) Q w') :
    Prog.Total (Prog.loop (rangeOuterWith ω.answer task aaf grounded arg (numberPairs n 1).1
      (numberPairs n 1).2.1 found notFound) solver) Q w := by
  have hv := labelVars_numberPairs n Int.one_pos
  obtain ⟨cs, henc⟩ := hc.encodes hv
  apply Prog.Total.loop_once
  rw [rangeOuterWith, satAssume_of_closed h.closed, pure_bind]
  apply Prog.Total.bind
  apply h.total_preferred hω [task.literal arg (numberPairs n 1).1]
    (A := fun b => task.Meets arg b.1) (task.lit_literal hv) (hc.semantics.labelling_of_ext hE)
    hmeets fun _ h => h
  intro τ hτ
  dsimp only
  rw [if_neg (by decide), rangeStart_of_sat hv rfl, pure_bind]
  have hgrown := grownFrom_grown hv τ
    (isLabelled τ.model (numberPairs n 1).1 (numberPairs n 1).2.1)
    ⟨(task.encode satInit (numberPairs n 1).1 (numberPairs n 1).2.1 aaf grounded).2,
      RaSet.initEmpty n, RaSet.initEmpty n⟩ (henc.describes hv) (fun i => RaSet.mem_initEmpty)
  rw [show labels (numberPairs n 1).1 (numberPairs n 1).2.1 τ = _ from hτ] at hgrown
  apply Prog.Total.bind
  apply total_rangeInnerWith_exhausted hv hgrown.describes
  · -- a larger range contradicts the choice of the extension
    rintro b ⟨⟨hb, hlabelled⟩, hnot⟩
    apply hnot
    apply hc.semantics.ext_max hE hb
    intro i hi
    apply hlabelled i ((isLabelled_iff hv).2 _)
    rwa [← labels_fst, ← labels_snd (numberPairs n 1).1, show labels _ _ τ = _ from hτ]
  · intro w' hw'
    apply (hfound _ w' hgrown.inArg hw').mono
    exact fun c w'' hc => Prog.total_pure.2 hc

/-- What a range query can show: an extension as sought, or the grounded one if it is total. -/
def RangeTask.MayShow (task : RangeTask n) (F : Framework (Fin n)) (arg : Fin n)
    (Ext : Set (Fin n) → Prop) (E : Set (Fin n)) : Prop :=
  Ext E ∧ (task.Meets arg E ∨ F.GroundedTotal ∧ (arg ∈ E → task.witnessAfterYes = true))

theorem total_rangeShown (ω : TotalOracle) (hc : task.Correct aaf grounded L Ext)
    (hg : Grounds aaf grounded) (w : World) :
    Prog.Total (rangeShown ω.answer aaf grounded arg task) (fun o w' =>
      Held ω (LabelsAs aaf.framework) (task.MayShow aaf.framework arg Ext) o ∧
      ∀ E, task.MayShow aaf.framework arg Ext E ∧ ω.Prefers (LabelsAs aaf.framework E) →
        w'.protocolOk = w.protocolOk) w := by
  have hv := labelVars_numberPairs n Int.one_pos
  obtain ⟨cs, henc⟩ := hc.encodes hv
  have hdesc := henc.describes hv
  have heq := henc.eq satInit
  rw [heq] at hdesc
  simp only [rangeShown, heq]
  by_cases htotal : aaf.framework.GroundedTotal
  · have honly : ∀ E, Ext E → E = aaf.framework.grounded := fun E hE => (hc.of_total htotal E).1 hE
    have hext : Ext (grounded.shown n).set := hg.shown_set.symm ▸ (hc.of_total htotal _).2 rfl
    rw [if_pos ((allGrounded_iff hg).2 htotal)]
    split_ifs with hin hyes
    · apply Prog.total_atomic_bind.2
      apply Prog.total_pure.2
      refine ⟨held_unique fun E => ⟨fun hE => ?_, ?_⟩, fun _ _ => rfl⟩
      · rw [hg.shown_set, honly E hE.1]
      · rintro rfl
        exact ⟨hext, .inr ⟨htotal, fun _ => hyes⟩⟩
    · apply Prog.total_atomic_bind.2
      apply Prog.total_pure.2
      refine ⟨held_none ?_, fun _ _ => rfl⟩
      rintro E ⟨hE, hshows⟩
      have harg : arg ∈ E := honly E hE ▸ (hg.in_iff arg).1 hin
      exact hyes (hshows.elim (fun hmeets => hc.witness (hmeets.1 harg)) fun h => h.2 harg)
    · apply Prog.total_atomic_bind.2
      apply Prog.total_pure.2
      refine ⟨held_unique fun E => ⟨fun hE => ?_, ?_⟩, fun _ _ => rfl⟩
      · rw [hg.shown_set, honly E hE.1]
      · rintro rfl
        refine ⟨hext, .inr ⟨htotal, fun harg => absurd ((hg.in_iff arg).2 ?_) hin⟩⟩
        rwa [← hg.shown_set]
  · rw [if_neg fun hall => htotal ((allGrounded_iff hg).1 hall)]
    have hsound : Prog.Total (Prog.loop (rangeOuterWith ω.answer task aaf grounded arg
        (numberPairs n 1).1 (numberPairs n 1).2.1
        (fun inArg => do
          printf (answer task.sought)
          pure (some inArg.shown))
        (do
          printf (answer !task.sought)
          pure none)) (satInit.pushAll cs)) (fun o _ =>
          ∀ s, o = some s → task.MayShow aaf.framework arg Ext s.set) w := by
      apply total_rangeLoopWith ω hv hc _ _ hdesc
      · intro s w' hs hmeets _
        apply Prog.total_atomic_bind.2
        apply Prog.total_pure.2
        rintro _ ⟨⟩
        exact ⟨hs, .inl hmeets⟩
      · intro w' _ _
        apply Prog.total_atomic_bind.2
        apply Prog.total_pure.2
        rintro _ ⟨⟩
    apply (hsound.and_forall (R := fun E o w' => (∃ s, o = some s ∧ s.set = E) ∧
      w'.protocolOk = w.protocolOk) _).mono
    · rintro o w' ⟨hsound, hcomplete⟩
      exact ⟨⟨hsound, fun E hE hω => (hcomplete E ⟨hE, hω⟩).1⟩, fun E hE => (hcomplete E hE).2⟩
    · rintro E ⟨⟨hE, hmeets⟩, hω⟩
      apply total_rangeOuterWith_stop hc hE (hmeets.resolve_right fun h => htotal h.1) hω hdesc
      intro s w' hs hw'
      apply Prog.total_atomic_bind.2
      apply Prog.total_pure.2
      exact ⟨⟨_, rfl, hs⟩, hw'⟩

end Range

end TaasFudge
