import TaasFudge.Argumentation.Range

/-! # Labellings left open

A cube of labellings lies between a lower and an upper labelling. A search that
reads the lower labelling off a cube and then asks for a labelling outside the
upper one stops at the lower labelling too early exactly when its IN set is no
extension. This file describes those IN sets by the framework alone.
-/

namespace TaasFudge

namespace Framework
variable {α : Type*} {F : Framework α} {P E O Q S T G : Set α}

/-- Every labelling between `(P, O)` and `(E, Q)` belongs to the family `L`. -/
structure Cube (L : Set α → Set α → Prop) (P E O Q : Set α) : Prop where
  in_subset : P ⊆ E
  out_subset : O ⊆ Q
  mem : ∀ S T, P ⊆ S → S ⊆ E → O ⊆ T → T ⊆ Q → L S T

/-- A cube at which a search for larger labellings stops: its lower labelling is not empty, and
no labelling of the family above the lower one leaves the upper one. The size of a labelling
is measured by `f`. -/
structure StopCube (L : Set α → Set α → Prop) (f : Set α → Set α → Set α) (P E O Q : Set α) :
    Prop extends Cube L P E O Q where
  nonempty : (f P O).Nonempty
  stop : ∀ S T, L S T → f P O ⊆ f S T → f S T ⊆ f E Q

/-- The search can stop with the IN set `P`. -/
def StopsAt (L : Set α → Set α → Prop) (f : Set α → Set α → Set α) (P : Set α) : Prop :=
  ∃ E O Q, StopCube L f P E O Q

def inSet (S _T : Set α) : Set α := S

def labelled (S T : Set α) : Set α := S ∪ T

theorem inSet_monotone : Monotone (Function.uncurry (inSet (α := α))) := fun _ _ h => h.1

theorem labelled_monotone : Monotone (Function.uncurry (labelled (α := α))) :=
  fun _ _ h => Set.union_subset_union h.1 h.2

variable {L : Set α → Set α → Prop}

theorem Cube.lower (h : Cube L P E O Q) : L P O :=
  h.mem P O subset_rfl h.in_subset subset_rfl h.out_subset

theorem StopCube.of_greatest {f : Set α → Set α → Set α} (h : L P O) (hne : (f P O).Nonempty)
    (hmax : ∀ S T, L S T → f P O ⊆ f S T → f S T ⊆ f P O) : StopCube L f P P O O := by
  refine ⟨⟨subset_rfl, subset_rfl, ?_⟩, hne, hmax⟩
  intro S T hPS hSP hOT hTO
  rwa [hSP.antisymm hPS, hTO.antisymm hOT]

/-- What an admissible set defends is not attacked by it. -/
theorem Admissible.characteristic_disjoint (hP : F.Admissible P) :
    ∀ a ∈ F.characteristic P, a ∉ F.attackedBy P := by
  rintro a ha ⟨b, hb, hba⟩
  exact hP.conflictFree.notMem_attackedBy hb (ha b hba)

theorem Admissible.subset_characteristic (hP : F.Admissible P) : P ⊆ F.characteristic P :=
  hP.defends

/-- The arguments that IN leaves open are defended, those that OUT leaves open attacked. -/
theorem Cube.subset_characteristic (h : Cube F.AdmissibleLabelling P E O Q) :
    E ⊆ F.characteristic P := by
  intro a ha b hba
  have hEO := h.mem E O h.in_subset subset_rfl subset_rfl h.out_subset
  exact h.lower.out_attacked (hEO.attackers_out a ha b hba)

theorem Cube.out_attacked (h : Cube F.AdmissibleLabelling P E O Q) : Q ⊆ F.attackedBy P :=
  (h.mem P Q subset_rfl h.in_subset h.out_subset subset_rfl).out_attacked

theorem Admissible.cube (hP : F.Admissible P) (hG : F.grounded ⊆ P) :
    Cube F.AdmissibleLabelling P (F.characteristic P) (F.attackedBy P) (F.attackedBy P) where
  in_subset := hP.subset_characteristic
  out_subset := subset_rfl
  mem S T hPS hSE hOT hTQ := by
    obtain rfl : T = F.attackedBy P := hTQ.antisymm hOT
    constructor
    · exact hG.trans hPS
    · exact attackedBy_mono hG
    · intro a ha
      exact hP.characteristic_disjoint a (hSE ha)
    · intro a ha b hba
      exact hSE ha b hba
    · exact attackedBy_mono hPS

theorem Preferred.characteristic_subset (hS : F.Preferred S) (h : P ⊆ S) :
    F.characteristic P ⊆ S := fun a ha => hS.complete.mem_of_defends a (Defends.mono h ha)

/-- A search for larger admissible sets always stops at a preferred extension, unless some
admissible set defends a preferred extension that it is not. -/
theorem stopsAt_preferred_iff :
    (∀ P, StopsAt F.AdmissibleLabelling inSet P → F.Preferred P) ↔
      ∀ P, F.Admissible P → F.grounded ⊆ P → P.Nonempty → F.Preferred (F.characteristic P) →
        F.characteristic P = P := by
  constructor
  · intro h P hP hG hne hpref
    refine (h P ⟨_, _, _, hP.cube hG, hne, ?_⟩).eq_of_subset hpref.prop hP.subset_characteristic |>.symm
    intro S T hST hPS
    obtain ⟨R, hSR, hR⟩ := hST.admissible.exists_preferred
    -- a preferred extension above `P` is the one defended by `P`
    rw [hpref.eq_of_subset hR.prop (hR.characteristic_subset (hPS.trans hSR))]
    exact hSR
  · rintro h P ⟨E, O, Q, hcube, hne, hstop⟩
    have hP : F.Admissible P := hcube.lower.admissible
    obtain ⟨R, hPR, hR⟩ := hP.exists_preferred
    have hRE : R ⊆ F.characteristic P :=
      (hstop R _ (hR.prop.labelling hR.grounded_subset) hPR).trans hcube.subset_characteristic
    have hRP : R = F.characteristic P := hRE.antisymm (hR.characteristic_subset hPR)
    have hfix := h P hP hcube.lower.grounded_in hne (hRP ▸ hR)
    rwa [hRP, hfix] at hR

/-- Where a search for labellings of larger range stops, no admissible set with at least that range
leaves what the lower labelling defends and attacks. -/
theorem StopCube.range_subset (h : StopCube F.AdmissibleLabelling labelled P E O Q)
    (hS : F.Admissible S) (hG : F.grounded ⊆ S) (hPS : F.range P ⊆ F.range S) :
    F.range S ⊆ F.characteristic P ∪ F.attackedBy P := by
  have hrange : P ∪ O ⊆ F.range P := Set.union_subset_union_right P h.lower.out_attacked
  have hupper : E ∪ Q ⊆ F.characteristic P ∪ F.attackedBy P :=
    Set.union_subset_union h.toCube.subset_characteristic h.toCube.out_attacked
  exact (h.stop S _ (hS.labelling hG) (hrange.trans hPS)).trans hupper

/-- A search for labellings of larger range always stops at a semi-stable extension, unless some
admissible set defends more than its members, and no admissible set of larger range leaves
what it defends and attacks. -/
theorem stopsAt_semiStable_iff :
    (∀ P, StopsAt F.AdmissibleLabelling labelled P → F.SemiStable P) ↔
      ∀ P, F.Admissible P → F.grounded ⊆ P → P.Nonempty →
        (∀ S, F.Admissible S → F.grounded ⊆ S → F.range P ⊆ F.range S →
          F.range S ⊆ F.characteristic P ∪ F.attackedBy P) →
        F.characteristic P = P := by
  constructor
  · intro h P hP hG hne hmax
    have hstop : StopsAt F.AdmissibleLabelling labelled P := by
      refine ⟨_, _, _, hP.cube hG, hne.mono Set.subset_union_left, ?_⟩
      intro S T hST hPS
      have hrange : S ∪ T ⊆ F.range S := Set.union_subset_union_right S hST.out_attacked
      exact hrange.trans (hmax S hST.admissible hST.grounded_in (hPS.trans hrange))
    have hcomp := (h P hstop).prop
    exact Set.Subset.antisymm (fun a ha => hcomp.mem_of_defends a ha) hP.subset_characteristic
  · rintro h P ⟨E, O, Q, hcube⟩
    have hP : F.Admissible P := hcube.lower.admissible
    have hmax : ∀ S, F.Admissible S → F.grounded ⊆ S → F.range P ⊆ F.range S →
        F.range S ⊆ F.characteristic P ∪ F.attackedBy P :=
      fun S hS hG hPS => hcube.range_subset hS hG hPS
    have hPne : P.Nonempty := by
      obtain ⟨a, ha | ha⟩ := hcube.nonempty
      · exact ⟨a, ha⟩
      · obtain ⟨b, hb, -⟩ := hcube.lower.out_attacked ha
        exact ⟨b, hb⟩
    have hfix := h P hP hcube.lower.grounded_in hPne hmax
    rw [hfix] at hmax
    exact semiStable_of_range_max hP fun T hT hPT =>
      hmax T hT.admissible hT.grounded_subset hPT

theorem Cube.conflictFree (h : Cube F.ConflictFreeLabelling P E O Q) :
    F.ConflictFree E ∧ F.attackedBy E = F.attackedBy P ∧ O = F.attackedBy P ∧ Q = O := by
  have hPQ := h.mem P Q subset_rfl h.in_subset h.out_subset subset_rfl
  have hEO := h.mem E O h.in_subset subset_rfl subset_rfl h.out_subset
  refine ⟨hEO.conflictFree, ?_, h.lower.out_eq, ?_⟩
  · rw [← hEO.out_eq, h.lower.out_eq]
  · rw [hPQ.out_eq, h.lower.out_eq]

theorem ConflictFree.cube (hE : F.ConflictFree E) (hPE : P ⊆ E)
    (hatt : F.attackedBy E = F.attackedBy P) :
    Cube F.ConflictFreeLabelling P E (F.attackedBy P) (F.attackedBy P) where
  in_subset := hPE
  out_subset := subset_rfl
  mem S T hPS hSE hOT hTQ := by
    refine ⟨hE.mono hSE, (hTQ.antisymm hOT).trans ?_⟩
    exact (attackedBy_mono hPS).antisymm ((attackedBy_mono hSE).trans hatt.subset)

/-- A search for conflict-free sets of larger range always stops at a stage extension, unless
some set can be enlarged without attacking more, and no conflict-free set of larger range
than the first leaves the range of the second. -/
theorem stopsAt_stage_iff :
    (∀ P, StopsAt F.ConflictFreeLabelling labelled P → F.Stage P) ↔
      ∀ P E, F.ConflictFree E → P ⊆ E → F.attackedBy E = F.attackedBy P → P.Nonempty →
        (∀ S, F.ConflictFree S → F.range P ⊆ F.range S → F.range S ⊆ F.range E) → E = P := by
  constructor
  · intro h P E hE hPE hatt hne hmax
    have hstop : StopsAt F.ConflictFreeLabelling labelled P := by
      refine ⟨_, _, _, hE.cube hPE hatt, hne.mono Set.subset_union_left, ?_⟩
      intro S T hST hPS
      rw [hST.out_eq] at hPS ⊢
      rw [← hatt]
      exact hmax S hST.conflictFree hPS
    exact hE.eq_of_subset_range hPE
      (Framework.subset_range.trans ((h P hstop).le_of_le hE (range_mono hPE)))
  · rintro h P ⟨E, O, Q, hcube, hne, hstop⟩
    obtain ⟨hE, hatt, rfl, rfl⟩ := hcube.conflictFree
    have hmax : ∀ S, F.ConflictFree S → F.range P ⊆ F.range S → F.range S ⊆ F.range E := by
      intro S hS hPS
      have hSE := hstop S _ hS.labelling hPS
      rw [← hatt] at hSE
      exact hSE
    have hPne : P.Nonempty := by
      obtain ⟨a, ha | ⟨b, hb, -⟩⟩ := hne
      · exact ⟨a, ha⟩
      · exact ⟨b, hb⟩
    have hfix := h P E hE hcube.in_subset hatt hPne hmax
    subst hfix
    exact ⟨hE, fun S hS hPS => hmax S hS hPS⟩

end Framework

end TaasFudge
