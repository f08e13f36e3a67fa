import Mathlib.Data.Fintype.Powerset
import Mathlib.Order.Preorder.Finite
import TaasFudge.Argumentation.Framework

/-! # Extensions of maximal range

The range of a set is the set together with what it attacks. Semi-stable
extensions are the complete extensions of maximal range, stage extensions the
conflict-free sets of maximal range. Both are described here through labellings
that may leave attacked arguments unlabelled, which is what a search over
labellings sees.
-/

namespace TaasFudge

namespace Framework
variable {α : Type*} (F : Framework α) {S T O U E : Set α} {a b : α}

def range (S : Set α) : Set α := S ∪ F.attackedBy S

/-- A complete extension whose range is maximal among complete extensions. -/
def SemiStable (S : Set α) : Prop := MaximalFor F.Complete F.range S

/-- A conflict-free set whose range is maximal among conflict-free sets. -/
def Stage (S : Set α) : Prop := MaximalFor F.ConflictFree F.range S

/-- An admissible labelling above the grounded one: `S` is IN, `O` is OUT, and OUT may
leave out arguments that `S` attacks without needing to. -/
structure AdmissibleLabelling (S O : Set α) : Prop where
  grounded_in : F.grounded ⊆ S
  grounded_out : F.attackedBy F.grounded ⊆ O
  disjoint : ∀ a ∈ S, a ∉ O
  attackers_out : ∀ a ∈ S, ∀ b, F.attacks b a → b ∈ O
  out_attacked : O ⊆ F.attackedBy S

structure ConflictFreeLabelling (S O : Set α) : Prop where
  conflictFree : F.ConflictFree S
  out_eq : O = F.attackedBy S

variable {F}

theorem range_mono (h : S ⊆ T) : F.range S ⊆ F.range T :=
  Set.union_subset_union h (attackedBy_mono h)

theorem subset_range : S ⊆ F.range S := Set.subset_union_left

/-- A conflict-free set above `S` inside the range of `S` is `S` itself. -/
theorem ConflictFree.eq_of_subset_range (hT : F.ConflictFree T) (h : S ⊆ T)
    (hr : T ⊆ F.range S) : T = S := by
  refine Set.Subset.antisymm (fun a ha => ?_) h
  rcases hr ha with hS | hS
  · exact hS
  · exact absurd (attackedBy_mono h hS) (hT.notMem_attackedBy ha)

theorem AdmissibleLabelling.admissible (h : F.AdmissibleLabelling S O) : F.Admissible S := by
  refine ⟨fun a ha b hb hab => ?_, fun a ha b hba => ?_⟩
  · exact h.disjoint a ha (h.attackers_out b hb a hab)
  · exact h.out_attacked (h.attackers_out a ha b hba)

theorem Admissible.labelling (hS : F.Admissible S) (hG : F.grounded ⊆ S) :
    F.AdmissibleLabelling S (F.attackedBy S) where
  grounded_in := hG
  grounded_out := attackedBy_mono hG
  disjoint _ ha := hS.conflictFree.notMem_attackedBy ha
  attackers_out a ha := hS.defends a ha
  out_attacked := subset_rfl

/-- The IN sets of admissible labellings are the admissible supersets of the grounded extension. -/
theorem exists_admissibleLabelling :
    (∃ O, F.AdmissibleLabelling S O) ↔ F.Admissible S ∧ F.grounded ⊆ S :=
  ⟨fun ⟨_, h⟩ => ⟨h.admissible, h.grounded_in⟩, fun h => ⟨_, h.1.labelling h.2⟩⟩

theorem ConflictFree.labelling (hS : F.ConflictFree S) :
    F.ConflictFreeLabelling S (F.attackedBy S) := ⟨hS, rfl⟩

theorem SemiStable.exists [Finite α] : ∃ S, F.SemiStable S :=
  (Set.toFinite {S | F.Complete S}).exists_maximalFor F.range _ ⟨_, grounded_complete⟩

theorem Stage.exists [Finite α] : ∃ S, F.Stage S :=
  (Set.toFinite {S | F.ConflictFree S}).exists_maximalFor F.range _ ⟨∅, fun _ h => h.elim⟩

/-- A family of labellings whose range-maximal members have the extensions `Ext` as IN sets.
Labellings may under-approximate the range; extensions occur with their full range. -/
structure RangeSemantics (F : Framework α) (L : Set α → Set α → Prop) (Ext : Set α → Prop) :
    Prop where
  out_attacked : ∀ {S O}, L S O → O ⊆ F.attackedBy S
  labelling_of_ext : ∀ {S}, Ext S → L S (F.attackedBy S)
  ext_max : ∀ {E S O}, Ext E → L S O → F.range E ⊆ S ∪ O → S ∪ O ⊆ F.range E
  ext_of_max : ∀ {S O}, L S O →
    (∀ T U, L T U → S ∪ O ⊆ T ∪ U → T ∪ U ⊆ F.range S) → Ext S

theorem RangeSemantics.subset_range {L : Set α → Set α → Prop} {Ext : Set α → Prop}
    (h : RangeSemantics F L Ext) (hL : L S O) : S ∪ O ⊆ F.range S :=
  Set.union_subset_union_right S (h.out_attacked hL)

/-- The range of an admissible set is below that of a semi-stable extension only if equal. -/
theorem SemiStable.range_max (hE : F.SemiStable E) (hS : F.Admissible S)
    (h : F.range E ⊆ F.range S) : F.range S ⊆ F.range E := by
  obtain ⟨P, hSP, hP⟩ := hS.exists_preferred
  exact (range_mono hSP).trans (hE.le_of_le hP.complete (h.trans (range_mono hSP)))

/-- An admissible set of maximal range is a semi-stable extension. -/
theorem semiStable_of_range_max (hS : F.Admissible S)
    (hmax : ∀ T, F.Complete T → F.range S ⊆ F.range T → F.range T ⊆ F.range S) :
    F.SemiStable S := by
  obtain ⟨P, hSP, hP⟩ := hS.exists_preferred
  have hPS : P = S := hP.prop.conflictFree.eq_of_subset_range hSP
    (Framework.subset_range.trans (hmax P hP.complete (range_mono hSP)))
  subst hPS
  exact ⟨hP.complete, fun T hT => hmax T hT⟩

theorem rangeSemantics_semiStable : RangeSemantics F F.AdmissibleLabelling F.SemiStable where
  out_attacked h := h.out_attacked
  labelling_of_ext h := h.prop.admissible.labelling h.prop.grounded_subset
  ext_max {E S O} hE hL h := by
    have hO : S ∪ O ⊆ F.range S := Set.union_subset_union_right S hL.out_attacked
    exact hO.trans (hE.range_max hL.admissible (h.trans hO))
  ext_of_max {S O} hL hmax := by
    refine semiStable_of_range_max hL.admissible fun T hT h => ?_
    have hO : S ∪ O ⊆ F.range S := Set.union_subset_union_right S hL.out_attacked
    exact hmax T _ (hT.admissible.labelling hT.grounded_subset) (hO.trans h)

theorem rangeSemantics_stage : RangeSemantics F F.ConflictFreeLabelling F.Stage where
  out_attacked h := h.out_eq.subset
  labelling_of_ext h := h.prop.labelling
  ext_max {E S O} hE hL h := by
    rw [hL.out_eq] at h ⊢
    exact hE.le_of_le hL.conflictFree h
  ext_of_max {S O} hL hmax := by
    refine ⟨hL.conflictFree, fun T hT h => hmax T _ hT.labelling ?_⟩
    rw [hL.out_eq]
    exact h

def GroundedTotal (F : Framework α) : Prop := ∀ a, a ∈ F.range F.grounded

theorem GroundedTotal.eq_grounded (h : F.GroundedTotal) (hS : F.ConflictFree S)
    (hG : F.grounded ⊆ S) : S = F.grounded :=
  hS.eq_of_subset_range hG fun a _ => h a

theorem GroundedTotal.complete_iff (h : F.GroundedTotal) : F.Complete S ↔ S = F.grounded := by
  constructor
  · intro hS
    exact h.eq_grounded hS.admissible.conflictFree hS.grounded_subset
  · rintro rfl
    exact grounded_complete

theorem GroundedTotal.preferred_iff (h : F.GroundedTotal) : F.Preferred S ↔ S = F.grounded := by
  constructor
  · intro hS
    exact h.complete_iff.1 hS.complete
  · rintro rfl
    obtain ⟨P, hP⟩ := exists_preferred (F := F)
    exact h.complete_iff.1 hP.complete ▸ hP

theorem GroundedTotal.semiStable_iff (h : F.GroundedTotal) :
    F.SemiStable S ↔ S = F.grounded := by
  constructor
  · intro hS
    exact h.complete_iff.1 hS.prop
  · rintro rfl
    refine semiStable_of_range_max grounded_complete.admissible fun T hT _ => ?_
    rw [h.complete_iff.1 hT]

/-- A conflict-free set of full range is stable, and a total grounded labelling leaves no
other stable extension. -/
theorem GroundedTotal.stage_iff (h : F.GroundedTotal) : F.Stage S ↔ S = F.grounded := by
  constructor
  · intro hS
    have hfull : ∀ a, a ∈ F.range S := fun a =>
      hS.le_of_le grounded_complete.admissible.conflictFree (fun b _ => h b) (h a)
    have hst : F.Stable S := ⟨hS.prop, fun a ha => (hfull a).resolve_left ha⟩
    exact h.complete_iff.1 hst.complete
  · rintro rfl
    exact ⟨grounded_complete.admissible.conflictFree, fun T _ _ a _ => h a⟩

section Largest
variable {P : Set α → Prop} {M : Set α}

/-- The ranges of the sets with the property `P` whose range is maximal among these. -/
def largestRanges (F : Framework α) (P : Set α → Prop) : Set (Set α) :=
  F.range '' {S | MaximalFor P F.range S}

def nearlyLargest (F : Framework α) (P : Set α → Prop) (a : α) : Set (Set α) :=
  F.largestRanges P ∪ (fun M => M \ {a}) '' F.largestRanges P

theorem ncard_nearlyLargest_le [Finite α] :
    (F.nearlyLargest P a).ncard ≤ 2 * (F.largestRanges P).ncard := by
  have hunion := Set.ncard_union_le (F.largestRanges P) ((fun M => M \ {a}) '' F.largestRanges P)
  have himage := Set.ncard_image_le (f := fun M => M \ {a}) (Set.toFinite (F.largestRanges P))
  rw [nearlyLargest]
  omega

/-- A set that differs from a largest range at most by the argument. -/
theorem mem_nearlyLargest (hM : M ∈ F.largestRanges P) (hsub : T ⊆ M) (hsup : M ⊆ insert a T) :
    T ∈ F.nearlyLargest P a := by
  by_cases ha : a ∈ T
  · rw [Set.insert_eq_of_mem ha] at hsup
    exact .inl (hsub.antisymm hsup ▸ hM)
  · refine .inr ⟨M, hM, Set.Subset.antisymm ?_ fun b hb => ⟨hsub hb, ?_⟩⟩
    · exact fun b hb => (hsup hb.1).resolve_left hb.2
    · rintro rfl
      exact ha hb

end Largest

end Framework

end TaasFudge
