import TaasFudge.Argumentation.Semantics

/-! # Inclusions between the semantics

Every stable extension is semi-stable and a stage extension, every semi-stable one preferred, every
preferred one complete. Acceptance follows the inclusions, and when a stable extension exists the
extensions of maximal range are the stable ones.
-/

namespace TaasFudge

namespace Framework
variable {α : Type*} {F : Framework α} {E S : Set α}

theorem Stable.range_eq_univ (h : F.Stable E) : F.range E = Set.univ := by
  ext a
  by_cases ha : a ∈ E
  · simp only [range, Set.mem_union, ha, true_or, Set.mem_univ]
  · simp only [range, Set.mem_union, h.attacked a ha, or_true, Set.mem_univ]

theorem stable_of_range_eq_univ (hE : F.ConflictFree E) (h : F.range E = Set.univ) : F.Stable E := by
  refine ⟨hE, fun a ha => ?_⟩
  have hmem : a ∈ F.range E := h ▸ Set.mem_univ a
  exact hmem.resolve_left ha

theorem Stable.semiStable (h : F.Stable E) : F.SemiStable E := by
  refine ⟨h.complete, fun T _ _ => ?_⟩
  rw [h.range_eq_univ]
  exact Set.subset_univ _

theorem Stable.stage (h : F.Stable E) : F.Stage E := by
  refine ⟨h.conflictFree, fun T _ _ => ?_⟩
  rw [h.range_eq_univ]
  exact Set.subset_univ _

theorem SemiStable.preferred (h : F.SemiStable E) : F.Preferred E := by
  refine ⟨h.prop.admissible, fun T hT hsub => ?_⟩
  have hrange := h.range_max hT (range_mono hsub)
  have heq := hT.conflictFree.eq_of_subset_range hsub (subset_range.trans hrange)
  exact heq.subset

theorem Ideal.complete (h : F.Ideal E) : F.Complete E := by
  refine ⟨h.1.admissible, fun a ha => ?_⟩
  have hsub : insert a E ⊆ E := by
    refine h.2 ⟨h.1.admissible.insert ha, fun P hP => ?_⟩
    have hEP := h.1.subset_preferred P hP
    exact Set.insert_subset (hP.complete.mem_of_defends a (Defends.mono hEP ha)) hEP
  exact hsub (Set.mem_insert a E)

/-- Beside a stable extension the others of maximal range are stable as well. -/
theorem SemiStable.stable (h : F.SemiStable E) (hS : F.Stable S) : F.Stable E := by
  apply stable_of_range_eq_univ h.prop.admissible.conflictFree
  have hrange := h.le_of_le hS.complete (by rw [hS.range_eq_univ]; exact Set.subset_univ _)
  rw [hS.range_eq_univ] at hrange
  exact Set.univ_subset_iff.1 hrange

theorem Stage.stable (h : F.Stage E) (hS : F.Stable S) : F.Stable E := by
  apply stable_of_range_eq_univ h.prop
  have hrange := h.le_of_le hS.conflictFree (by rw [hS.range_eq_univ]; exact Set.subset_univ _)
  rw [hS.range_eq_univ] at hrange
  exact Set.univ_subset_iff.1 hrange

end Framework

namespace Semantics

inductive Within : Semantics → Semantics → Prop
  | refl (σ : Semantics) : Within σ σ
  | st_sst : Within st sst
  | st_stg : Within st stg
  | sst_pr : Within sst pr
  | pr_co : Within pr co
  | id_co : Within id co
  | gr_co : Within gr co
  | trans {σ τ υ : Semantics} (h : Within σ τ) (h' : Within τ υ) : Within σ υ

variable {α : Type*} {F : Framework α} {E S : Set α} {σ τ : Semantics} {a : α}

theorem Within.extension (h : Within σ τ) (hE : σ.Extension F E) : τ.Extension F E := by
  induction h with
  | refl σ => exact hE
  | st_sst => exact Framework.Stable.semiStable hE
  | st_stg => exact Framework.Stable.stage hE
  | sst_pr => exact Framework.SemiStable.preferred hE
  | pr_co => exact Framework.Preferred.complete hE
  | id_co => exact Framework.Ideal.complete hE
  | gr_co =>
    rw [show E = F.grounded from hE]
    exact Framework.grounded_complete
  | trans _ _ ih ih' => exact ih' (ih hE)

theorem Within.credulous (h : Within σ τ) (ha : Mode.dc.Accepts F σ a) : Mode.dc.Accepts F τ a := by
  obtain ⟨E, hE, ha⟩ := ha
  exact ⟨E, h.extension hE, ha⟩

theorem Within.sceptical (h : Within σ τ) (ha : Mode.ds.Accepts F τ a) : Mode.ds.Accepts F σ a :=
  fun E hE => ha E (h.extension hE)

/-- Beside a stable extension the semantics of maximal range are one. -/
theorem extension_iff_stable (hS : F.Stable S) (hσ : σ = sst ∨ σ = stg) :
    σ.Extension F E ↔ F.Stable E := by
  rcases hσ with rfl | rfl
  · exact ⟨fun h => Framework.SemiStable.stable h hS, Framework.Stable.semiStable⟩
  · exact ⟨fun h => Framework.Stage.stable h hS, Framework.Stable.stage⟩

/-- When the grounded labelling is total, all semantics have one and the same extension. -/
theorem extension_iff_grounded (h : F.GroundedTotal) (σ : Semantics) :
    σ.Extension F E ↔ E = F.grounded := by
  cases σ with
  | co => exact h.complete_iff
  | gr => exact Iff.rfl
  | pr => exact h.preferred_iff
  | st =>
    constructor
    · exact fun hE => h.complete_iff.1 (Framework.Stable.complete hE)
    · rintro rfl
      exact ⟨Framework.grounded_complete.admissible.conflictFree,
        fun a ha => (h a).resolve_left ha⟩
  | sst => exact h.semiStable_iff
  | id =>
    -- the ideal extension lies between the grounded and the only preferred one
    have hsub : ∀ {I}, F.Ideal I → I = F.grounded := fun hI =>
      (hI.1.subset_preferred _ (h.preferred_iff.2 rfl)).antisymm hI.grounded_subset
    constructor
    · exact hsub
    · rintro rfl
      refine ⟨Framework.grounded_idealSet, fun I hI => ?_⟩
      exact hI.subset_preferred _ (h.preferred_iff.2 rfl)
  | stg => exact h.stage_iff

end Semantics

namespace Mode
variable {α : Type*} {F : Framework α} {σ : Semantics} {a : α} {S : Set α}

theorem dc_of_ds [Finite α] (hσ : σ ≠ .st) (h : ds.Accepts F σ a) : dc.Accepts F σ a := by
  obtain ⟨E, hE⟩ := Semantics.exists_extension (F := F) hσ
  exact ⟨E, hE, h E hE⟩

theorem dc_co_iff_pr : dc.Accepts F .co a ↔ dc.Accepts F .pr a :=
  Framework.exists_complete_mem_iff.trans Framework.exists_preferred_mem_iff.symm

theorem ds_id_iff_dc : ds.Accepts F .id a ↔ dc.Accepts F .id a := by
  constructor
  · intro h
    obtain ⟨I, hI⟩ := Framework.exists_ideal (F := F)
    exact ⟨I, hI, h I hI⟩
  · rintro ⟨I, hI, ha⟩ J hJ
    rwa [Framework.Ideal.unique hJ hI]

theorem ds_pr_of_dc_id (h : dc.Accepts F .id a) : ds.Accepts F .pr a := by
  obtain ⟨I, hI, ha⟩ := h
  exact fun P hP => hI.1.subset_preferred P hP ha

theorem accepts_iff_stable (hS : F.Stable S) (hσ : σ = .sst ∨ σ = .stg) (m : Mode) :
    m.Accepts F σ a ↔ m.Accepts F .st a := by
  cases m with
  | dc => exact exists_congr fun E => and_congr_left' (Semantics.extension_iff_stable hS hσ)
  | ds => exact forall_congr' fun E => imp_congr_left (Semantics.extension_iff_stable hS hσ)

theorem accepts_iff_grounded (h : F.GroundedTotal) {m : Mode} :
    m.Accepts F σ a ↔ a ∈ F.grounded := by
  cases m with
  | dc => simp [Accepts, Semantics.extension_iff_grounded h σ]
  | ds => simp [Accepts, Semantics.extension_iff_grounded h σ]

/-- Already the queries about stable extensions tell whether the grounded labelling is total. -/
theorem groundedTotal_of_accepts
    (h : ∀ (m : Mode) (a : α), m.Accepts F .st a ↔ a ∈ F.grounded) : F.GroundedTotal := by
  intro a
  by_cases hst : ∃ E, F.Stable E
  · obtain ⟨E, hE⟩ := hst
    have heq : E = F.grounded := Set.ext fun b =>
      ⟨fun hb => (h .dc b).1 ⟨E, hE, hb⟩, fun hb => (h .ds b).2 hb E hE⟩
    subst heq
    rw [hE.range_eq_univ]
    trivial
  · -- without a stable extension every argument is accepted sceptically
    exact .inl ((h .ds a).1 fun E hE => absurd ⟨E, hE⟩ hst)

end Mode

end TaasFudge
