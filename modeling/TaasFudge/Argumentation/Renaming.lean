import TaasFudge.Argumentation.Semantics

/-! # Renaming arguments

A bijection that keeps the attacks pulls the extensions of one framework back to those of the
other, for every semantics. Acceptance and the number of extensions are the same.
-/

namespace TaasFudge

namespace Framework

/-- A bijection between the arguments of two frameworks that keeps the attacks. -/
structure Renaming {α β : Type*} (F : Framework α) (G : Framework β) where
  toEquiv : α ≃ β
  attacks_iff : ∀ a b, F.attacks a b ↔ G.attacks (toEquiv a) (toEquiv b)

namespace Renaming
variable {α β : Type*} {F : Framework α} {G : Framework β} (e : Renaming F G) {E T : Set β} {a : α}

def pull (E : Set β) : Set α := Set.preimage e.toEquiv E

@[simp] theorem mem_pull : a ∈ e.pull E ↔ e.toEquiv a ∈ E := Iff.rfl

theorem pull_injective : Function.Injective e.pull := e.toEquiv.surjective.preimage_injective

theorem pull_surjective : Function.Surjective e.pull := e.toEquiv.injective.preimage_surjective

theorem pull_subset_iff : e.pull E ⊆ e.pull T ↔ E ⊆ T :=
  Set.preimage_subset_preimage_iff (by rw [e.toEquiv.range_eq_univ]; exact Set.subset_univ _)

theorem pull_attackedBy : e.pull (G.attackedBy E) = F.attackedBy (e.pull E) := by
  ext b
  constructor
  · rintro ⟨x, hx, hxb⟩
    obtain ⟨a, rfl⟩ := e.toEquiv.surjective x
    exact ⟨a, hx, (e.attacks_iff a b).2 hxb⟩
  · rintro ⟨a, ha, hab⟩
    exact ⟨e.toEquiv a, ha, (e.attacks_iff a b).1 hab⟩

theorem pull_range : e.pull (G.range E) = F.range (e.pull E) := by
  rw [range, range, ← e.pull_attackedBy]
  rfl

theorem conflictFree_iff : G.ConflictFree E ↔ F.ConflictFree (e.pull E) := by
  simp only [ConflictFree, e.toEquiv.surjective.forall, mem_pull, e.attacks_iff]

theorem defends_iff : G.Defends E (e.toEquiv a) ↔ F.Defends (e.pull E) a := by
  simp only [Defends, e.toEquiv.surjective.forall, ← e.pull_attackedBy, mem_pull, e.attacks_iff]

theorem admissible_iff : G.Admissible E ↔ F.Admissible (e.pull E) := by
  have hdefends : (∀ x ∈ E, G.Defends E x) ↔ ∀ a ∈ e.pull E, F.Defends (e.pull E) a := by
    simp only [e.toEquiv.surjective.forall, e.defends_iff, mem_pull]
  exact ⟨fun h => ⟨e.conflictFree_iff.1 h.conflictFree, hdefends.1 h.defends⟩,
    fun h => ⟨e.conflictFree_iff.2 h.conflictFree, hdefends.2 h.defends⟩⟩

theorem complete_iff : G.Complete E ↔ F.Complete (e.pull E) := by
  have hclosed : (∀ x, G.Defends E x → x ∈ E) ↔ ∀ a, F.Defends (e.pull E) a → a ∈ e.pull E := by
    simp only [e.toEquiv.surjective.forall, e.defends_iff, mem_pull]
  exact ⟨fun h => ⟨e.admissible_iff.1 h.admissible, hclosed.1 h.mem_of_defends⟩,
    fun h => ⟨e.admissible_iff.2 h.admissible, hclosed.2 h.mem_of_defends⟩⟩

theorem stable_iff : G.Stable E ↔ F.Stable (e.pull E) := by
  have hattacked : (∀ x, x ∉ E → x ∈ G.attackedBy E) ↔
      ∀ a, a ∉ e.pull E → a ∈ F.attackedBy (e.pull E) := by
    simp only [e.toEquiv.surjective.forall, ← e.pull_attackedBy, mem_pull]
  exact ⟨fun h => ⟨e.conflictFree_iff.1 h.conflictFree, hattacked.1 h.attacked⟩,
    fun h => ⟨e.conflictFree_iff.2 h.conflictFree, hattacked.2 h.attacked⟩⟩

theorem pull_grounded : e.pull G.grounded = F.grounded := by
  have hleast : IsLeast {S | F.Complete S} (e.pull G.grounded) := by
    refine ⟨e.complete_iff.1 grounded_complete, fun S hS => ?_⟩
    obtain ⟨E, rfl⟩ := e.pull_surjective S
    exact e.pull_subset_iff.2 (e.complete_iff.2 hS).grounded_subset
  exact hleast.unique grounded_isLeast_complete

/-- What is maximal in size among the sets with a property. -/
theorem maximalFor_iff {P : Set α → Prop} {Q : Set β → Prop} {f : Set α → Set α}
    {g : Set β → Set β} (hP : ∀ E, Q E ↔ P (e.pull E)) (hf : ∀ E, e.pull (g E) = f (e.pull E)) :
    MaximalFor Q g E ↔ MaximalFor P f (e.pull E) := by
  simp only [MaximalFor, e.pull_surjective.forall, hP, ← hf, e.pull_subset_iff]

theorem preferred_iff : G.Preferred E ↔ F.Preferred (e.pull E) :=
  e.maximalFor_iff (f := id) (g := id) (fun _ => e.admissible_iff) fun _ => rfl

theorem semiStable_iff : G.SemiStable E ↔ F.SemiStable (e.pull E) :=
  e.maximalFor_iff (fun _ => e.complete_iff) fun _ => e.pull_range

theorem stage_iff : G.Stage E ↔ F.Stage (e.pull E) :=
  e.maximalFor_iff (fun _ => e.conflictFree_iff) fun _ => e.pull_range

theorem idealSet_iff : G.IdealSet E ↔ F.IdealSet (e.pull E) := by
  have hsub : (∀ P, G.Preferred P → E ⊆ P) ↔ ∀ P, F.Preferred P → e.pull E ⊆ P := by
    simp only [e.pull_surjective.forall, e.preferred_iff, e.pull_subset_iff]
  exact ⟨fun h => ⟨e.admissible_iff.1 h.admissible, hsub.1 h.subset_preferred⟩,
    fun h => ⟨e.admissible_iff.2 h.admissible, hsub.2 h.subset_preferred⟩⟩

theorem ideal_iff : G.Ideal E ↔ F.Ideal (e.pull E) := by
  simp only [Ideal, IsGreatest, upperBounds, Set.mem_ofPred_eq, e.pull_surjective.forall,
    e.idealSet_iff, e.pull_subset_iff]

theorem extension_iff (σ : Semantics) : σ.Extension G E ↔ σ.Extension F (e.pull E) := by
  cases σ with
  | co => exact e.complete_iff
  | gr =>
    change E = G.grounded ↔ e.pull E = F.grounded
    rw [← e.pull_grounded, e.pull_injective.eq_iff]
  | pr => exact e.preferred_iff
  | st => exact e.stable_iff
  | sst => exact e.semiStable_iff
  | id => exact e.ideal_iff
  | stg => exact e.stage_iff

theorem accepts_iff (m : Mode) (σ : Semantics) (a : α) :
    m.Accepts F σ a ↔ m.Accepts G σ (e.toEquiv a) := by
  cases m with
  | dc => simp only [Mode.Accepts, e.pull_surjective.exists, e.extension_iff, mem_pull]
  | ds => simp only [Mode.Accepts, e.pull_surjective.forall, e.extension_iff, mem_pull]

theorem ncard_extension (r : Renaming F G) (σ : Semantics) :
    {S | σ.Extension F S}.ncard = {E | σ.Extension G E}.ncard := by
  have himage : {S | σ.Extension F S} = r.pull '' {E | σ.Extension G E} := by
    ext S
    obtain ⟨E, rfl⟩ := r.pull_surjective S
    rw [Function.Injective.mem_set_image r.pull_injective]
    exact (r.extension_iff σ).symm
  rw [himage, Set.ncard_image_of_injective _ r.pull_injective]

end Renaming

end Framework

end TaasFudge
