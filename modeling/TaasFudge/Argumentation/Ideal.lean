import TaasFudge.Argumentation.Framework

/-! # Sceptical acceptance and the ideal extension

Both are decided here without listing preferred extensions. An argument is in
every preferred extension when it is credulously accepted and every admissible
set attacking one of its admissible sets can be joined with it. The ideal
extension is found inside the super-core, the arguments no admissible set attacks.
-/

namespace TaasFudge

namespace Framework
variable {α : Type*} (F : Framework α) {S T I C J : Set α} {a b : α}

/-- Membership in every preferred extension. -/
def Sceptical (a : α) : Prop := ∀ P, F.Preferred P → a ∈ P

/-- Admissible and contained in every preferred extension. -/
structure IdealSet (S : Set α) : Prop where
  admissible : F.Admissible S
  subset_preferred : ∀ P, F.Preferred P → S ⊆ P

/-- The largest admissible set contained in every preferred extension. -/
def Ideal (I : Set α) : Prop := IsGreatest {S | F.IdealSet S} I

def superCore : Set α := {a | ∀ S, F.Admissible S → a ∉ F.attackedBy S}

/-- Admissible sets above a core `C`. -/
structure AdmissibleAbove (C S : Set α) : Prop where
  admissible : F.Admissible S
  core_subset : C ⊆ S

/-- `S` can be enlarged by `a` to an admissible set above the core. -/
def Extendable (C : Set α) (a : α) (S : Set α) : Prop :=
  ∃ T, F.AdmissibleAbove C T ∧ S ⊆ T ∧ a ∈ T

/-- A preferred extension without `a`, which attacks `a` if an admissible set does although another
one contains it. -/
structure Dissents (a : α) (E : Set α) : Prop where
  preferred : F.Preferred E
  notMem : a ∉ E
  attacks : (∃ T, F.Admissible T ∧ a ∈ T) → (∃ S, F.Admissible S ∧ a ∈ F.attackedBy S) →
    a ∈ F.attackedBy E

variable {F}

theorem Extendable.mono (h : S ⊆ T) (hT : F.Extendable C a T) : F.Extendable C a S :=
  hT.imp fun _ hU => ⟨hU.1, h.trans hU.2.1, hU.2.2⟩

/-- An argument attacked by an admissible set is missing from some preferred extension. -/
theorem Admissible.exists_preferred_notMem (hS : F.Admissible S) (ha : a ∈ F.attackedBy S) :
    ∃ P, S ⊆ P ∧ F.Preferred P ∧ a ∉ P := by
  obtain ⟨P, hSP, hP⟩ := hS.exists_preferred
  exact ⟨P, hSP, hP, fun h => hP.prop.conflictFree.notMem_attackedBy h (attackedBy_mono hSP ha)⟩

theorem Sceptical.mem_superCore (h : F.Sceptical a) : a ∈ F.superCore := by
  intro S hS ha
  obtain ⟨P, _, hP, haP⟩ := hS.exists_preferred_notMem ha
  exact haP (h P hP)

/-- A core of sceptically accepted arguments lies in every preferred extension, so every
admissible set can be enlarged to one above the core. -/
theorem Admissible.exists_preferred_above (hC : ∀ c ∈ C, F.Sceptical c) (hS : F.Admissible S) :
    ∃ P, F.Preferred P ∧ S ⊆ P ∧ C ⊆ P := by
  obtain ⟨P, hSP, hP⟩ := hS.exists_preferred
  exact ⟨P, hP, hSP, fun c hc => hC c hc P hP⟩

theorem sceptical_of_mem_grounded (ha : a ∈ F.grounded) : F.Sceptical a :=
  fun _ hP => hP.grounded_subset ha

theorem sceptical_iff_mem_grounded (honly : ∀ P, F.Preferred P → P = F.grounded) :
    F.Sceptical a ↔ a ∈ F.grounded := by
  constructor
  · intro ha
    obtain ⟨P, hP⟩ := exists_preferred (F := F)
    exact honly P hP ▸ ha P hP
  · exact sceptical_of_mem_grounded

theorem Dissents.attacks_admissible (h : F.Dissents a S) (hT : F.Admissible T) (ha : a ∈ T) :
    (F.attackedBy S ∩ T).Nonempty := by
  by_contra hno
  apply h.notMem
  apply h.preferred.subset_of_not_attacks hT _ ha
  exact fun b hb c hc hbc => hno ⟨c, ⟨b, hb, hbc⟩, hc⟩

/-- The counterexample test: with a core of accepted arguments, a credulously accepted
argument is sceptically accepted iff it extends every admissible set above the core that
attacks some admissible set above the core containing it. -/
theorem sceptical_iff_extendable (hC : ∀ c ∈ C, F.Sceptical c)
    (hcred : ∃ S, F.Admissible S ∧ a ∈ S) :
    F.Sceptical a ↔ ∀ S T, F.AdmissibleAbove C S → F.AdmissibleAbove C T → a ∈ T →
      (F.attackedBy S ∩ T).Nonempty → F.Extendable C a S := by
  constructor
  · intro h S T hS _ _ _
    obtain ⟨P, hP, hSP, hCP⟩ := hS.admissible.exists_preferred_above hC
    exact ⟨P, ⟨hP.prop, hCP⟩, hSP, h P hP⟩
  · intro h P hP
    by_contra haP
    obtain ⟨S, hS, haS⟩ := hcred
    obtain ⟨T, hT, hST, hCT⟩ := hS.exists_preferred_above hC
    have hatt : (F.attackedBy P ∩ T).Nonempty := by
      by_contra hno
      refine haP (hP.subset_of_not_attacks hT.prop ?_ (hST haS))
      exact fun b hb c hc hbc => hno ⟨c, ⟨b, hb, hbc⟩, hc⟩
    obtain ⟨U, hU, hPU, haU⟩ := h P T ⟨hP.prop, fun c hc => hC c hc P hP⟩ ⟨hT.prop, hCT⟩
      (hST haS) hatt
    exact haP (hP.eq_of_subset hU.admissible hPU ▸ haU)

theorem not_sceptical_of_not_extendable (hC : ∀ c ∈ C, F.Sceptical c)
    (h : ¬ F.Extendable C a S) : ∀ P, F.Preferred P → S ⊆ P → a ∉ P :=
  fun P hP hSP ha => h ⟨P, ⟨hP.prop, fun c hc => hC c hc P hP⟩, hSP, ha⟩

theorem IdealSet.subset_superCore (h : F.IdealSet S) : S ⊆ F.superCore :=
  fun _ ha => Sceptical.mem_superCore fun P hP => h.subset_preferred P hP ha

theorem Ideal.unique (hI : F.Ideal I) (hJ : F.Ideal J) : I = J := IsGreatest.unique hI hJ

theorem grounded_idealSet : F.IdealSet F.grounded :=
  ⟨grounded_complete.admissible, fun _ hP => hP.grounded_subset⟩

theorem Ideal.grounded_subset (hI : F.Ideal I) : F.grounded ⊆ I := hI.2 grounded_idealSet

/-- An admissible set that no admissible set attacks is in every preferred extension. -/
theorem Admissible.idealSet (hS : F.Admissible S) (h : S ⊆ F.superCore) : F.IdealSet S :=
  ⟨hS, fun P hP => hP.subset_of_not_attacks hS fun a ha _ hb hab =>
    h hb P hP.prop ⟨a, ha, hab⟩⟩

def unattackedCore (F : Framework α) : Set α :=
  {a ∈ F.superCore | ∀ b, F.attacks b a → b ∉ F.superCore}

/-- Dropping the arguments attacked from within the super-core loses no ideal argument: an
ideal set attacks all its attackers, and what it attacks is outside the super-core. -/
theorem IdealSet.subset_unattackedCore (h : F.IdealSet S) : S ⊆ F.unattackedCore :=
  fun a ha => ⟨h.subset_superCore ha, fun b hba hb =>
    hb S h.admissible (h.admissible.defends a ha b hba)⟩

def SelfDefending (F : Framework α) (S : Set α) : Prop := ∀ a ∈ S, F.Defends S a

/-- A self-defending part of the unattacked core is an ideal set. -/
theorem SelfDefending.idealSet (hsub : S ⊆ F.unattackedCore) (hdef : F.SelfDefending S) :
    F.IdealSet S := by
  have hcf : F.ConflictFree S := fun a ha b hb hab => (hsub hb).2 a hab (hsub ha).1
  exact Admissible.idealSet ⟨hcf, hdef⟩ fun a ha => (hsub ha).1

/-- The ideal extension is the greatest self-defending part of the unattacked core. -/
theorem ideal_of_greatest (hI : IsGreatest {S | S ⊆ F.unattackedCore ∧ F.SelfDefending S} I) :
    F.Ideal I := by
  obtain ⟨⟨hsub, hdef⟩, hmax⟩ := hI
  exact ⟨hdef.idealSet hsub, fun S hS =>
    hmax ⟨hS.subset_unattackedCore, hS.admissible.defends⟩⟩

theorem exists_ideal : ∃ I, F.Ideal I := by
  refine ⟨⋃₀ {S | S ⊆ F.unattackedCore ∧ F.SelfDefending S}, ideal_of_greatest ⟨⟨?_, ?_⟩, ?_⟩⟩
  · exact Set.sUnion_subset fun S hS => hS.1
  · rintro a ⟨S, hS, ha⟩
    exact (hS.2 a ha).mono (Set.subset_sUnion_of_mem hS)
  · exact fun S hS => Set.subset_sUnion_of_mem hS

/-- When no admissible set above the grounded extension attacks an argument outside the reach
of the grounded extension, the grounded extension is the only preferred extension. -/
theorem ideal_grounded_of_no_attack
    (h : ∀ S, F.Admissible S → F.grounded ⊆ S → F.attackedBy S ⊆ F.attackedBy F.grounded) :
    F.Ideal F.grounded ∧ ∀ P, F.Preferred P → P = F.grounded := by
  have hP : ∀ P, F.Preferred P → P = F.grounded := fun P hP =>
    Set.Subset.antisymm (fun a ha => mem_grounded.2 fun b hba =>
      h P hP.prop hP.grounded_subset (hP.prop.defends a ha b hba)) hP.grounded_subset
  refine ⟨⟨grounded_idealSet, fun S hS => ?_⟩, hP⟩
  obtain ⟨P, hPref⟩ := exists_preferred (F := F)
  exact hP P hPref ▸ hS.subset_preferred P hPref

end Framework

end TaasFudge
