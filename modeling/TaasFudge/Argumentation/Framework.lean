import Mathlib

/-! # Abstract argumentation frameworks

A framework is an attack relation on arguments of any type. This file has the
acceptability semantics built on admissible sets: complete, grounded, preferred
and stable extensions, and how they contain one another.
-/

namespace TaasFudge

/-- Arguments are the elements of `α`; `attacks a b` says that `a` attacks `b`. -/
structure Framework (α : Type*) where
  attacks : α → α → Prop

namespace Framework
variable {α : Type*} (F : Framework α) {S T : Set α} {a b : α}

def attackedBy (S : Set α) : Set α := {b | ∃ a ∈ S, F.attacks a b}

def ConflictFree (S : Set α) : Prop := ∀ a ∈ S, ∀ b ∈ S, ¬ F.attacks a b

def Defends (S : Set α) (a : α) : Prop := ∀ b, F.attacks b a → b ∈ F.attackedBy S

def characteristic : Set α →o Set α where
  toFun S := {a | F.Defends S a}
  monotone' _ _ hST _ ha b hb := (ha b hb).imp fun _ hc => ⟨hST hc.1, hc.2⟩

def grounded : Set α := F.characteristic.lfp

structure Admissible (S : Set α) : Prop where
  conflictFree : F.ConflictFree S
  defends : ∀ a ∈ S, F.Defends S a

structure Complete (S : Set α) : Prop where
  admissible : F.Admissible S
  mem_of_defends : ∀ a, F.Defends S a → a ∈ S

def Preferred (S : Set α) : Prop := Maximal F.Admissible S

structure Stable (S : Set α) : Prop where
  conflictFree : F.ConflictFree S
  attacked : ∀ a, a ∉ S → a ∈ F.attackedBy S

variable {F}

theorem attackedBy_mono (h : S ⊆ T) : F.attackedBy S ⊆ F.attackedBy T :=
  fun _ ⟨a, ha, hab⟩ => ⟨a, h ha, hab⟩

theorem Defends.mono (h : S ⊆ T) (hS : F.Defends S a) : F.Defends T a :=
  F.characteristic.monotone h hS

theorem ConflictFree.mono (h : S ⊆ T) (hT : F.ConflictFree T) : F.ConflictFree S :=
  fun a ha b hb => hT a (h ha) b (h hb)

/-- An argument in conflict with every other one is alone in a conflict-free set. -/
theorem ConflictFree.eq_singleton (hS : F.ConflictFree S) (ha : a ∈ S)
    (h : ∀ b, b ≠ a → ¬ F.ConflictFree {a, b}) : S = {a} := by
  ext b
  refine ⟨fun hb => ?_, fun hb => (show b = a from hb) ▸ ha⟩
  by_contra hne
  exact h b hne (hS.mono (Set.insert_subset ha (Set.singleton_subset_iff.2 hb)))

/-- When all other arguments attack themselves, only the empty set leaves out `a`. -/
theorem ConflictFree.eq_empty (hS : F.ConflictFree S) (ha : a ∉ S)
    (h : ∀ b, b ≠ a → ¬ F.ConflictFree {b}) : S = ∅ := by
  refine Set.eq_empty_of_forall_notMem fun b hb => h b ?_ (hS.mono (Set.singleton_subset_iff.2 hb))
  rintro rfl
  exact ha hb

theorem ConflictFree.notMem_attackedBy (h : F.ConflictFree S) (ha : a ∈ S) :
    a ∉ F.attackedBy S := fun ⟨b, hb, hba⟩ => h b hb a ha hba

theorem admissible_empty : F.Admissible ∅ :=
  ⟨fun _ ha => ha.elim, fun _ ha => ha.elim⟩

theorem Admissible.attacks_back (hS : F.Admissible S) (h : (F.attackedBy T ∩ S).Nonempty) :
    (F.attackedBy S ∩ T).Nonempty := by
  obtain ⟨b, ⟨a, ha, hab⟩, hb⟩ := h
  exact ⟨a, hS.defends b hb a hab, ha⟩

/-- Two admissible sets without an attack from the first to the second fit together. -/
theorem Admissible.union (hS : F.Admissible S) (hT : F.Admissible T)
    (h : ∀ a ∈ S, ∀ b ∈ T, ¬ F.attacks a b) : F.Admissible (S ∪ T) := by
  have hTS : ∀ b ∈ T, ∀ a ∈ S, ¬ F.attacks b a := by
    intro b hb a ha hba
    obtain ⟨c, hc, hcT⟩ := hS.attacks_back ⟨a, ⟨b, hb, hba⟩, ha⟩
    obtain ⟨d, hd, hdc⟩ := hc
    exact h d hd c hcT hdc
  constructor
  · rintro a (ha | ha) b (hb | hb)
    · exact hS.conflictFree a ha b hb
    · exact h a ha b hb
    · exact hTS a ha b hb
    · exact hT.conflictFree a ha b hb
  · rintro a (ha | ha)
    · exact (hS.defends a ha).mono Set.subset_union_left
    · exact (hT.defends a ha).mono Set.subset_union_right

/-- The fundamental lemma: an admissible set can take in what it defends. -/
theorem Admissible.insert (hS : F.Admissible S) (ha : F.Defends S a) :
    F.Admissible (insert a S) := by
  have hSa : ∀ b ∈ S, ¬ F.attacks b a := by
    intro b hb hba
    exact hS.conflictFree.notMem_attackedBy hb (ha b hba)
  have haS : ∀ b ∈ S, ¬ F.attacks a b := by
    intro b hb hab
    obtain ⟨c, hc, hca⟩ := hS.defends b hb a hab
    exact hSa c hc hca
  have haa : ¬ F.attacks a a := by
    intro h
    obtain ⟨c, hc, hca⟩ := ha a h
    exact hSa c hc hca
  constructor
  · rintro b (rfl | hb) c (rfl | hc)
    · exact haa
    · exact haS c hc
    · exact hSa b hb
    · exact hS.conflictFree b hb c hc
  · rintro b (rfl | hb)
    · exact ha.mono (Set.subset_insert _ _)
    · exact (hS.defends b hb).mono (Set.subset_insert _ _)

theorem admissible_sUnion_of_chain {c : Set (Set α)} (hc : ∀ S ∈ c, F.Admissible S)
    (hchain : IsChain (· ⊆ ·) c) : F.Admissible (⋃₀ c) := by
  constructor
  · rintro a ⟨S, hS, ha⟩ b ⟨T, hT, hb⟩
    rcases hchain.total hS hT with h | h
    · exact (hc T hT).conflictFree a (h ha) b hb
    · exact (hc S hS).conflictFree a ha b (h hb)
  · rintro a ⟨S, hS, ha⟩
    exact ((hc S hS).defends a ha).mono (Set.subset_sUnion_of_mem hS)

theorem Admissible.exists_preferred (hS : F.Admissible S) : ∃ P, S ⊆ P ∧ F.Preferred P := by
  obtain ⟨P, hSP, hP⟩ := zorn_subset_nonempty {T | F.Admissible T}
    (fun c hc hchain _ => ⟨⋃₀ c, admissible_sUnion_of_chain hc hchain,
      fun T hT => Set.subset_sUnion_of_mem hT⟩) S hS
  exact ⟨P, hSP, hP⟩

theorem exists_preferred : ∃ P, F.Preferred P :=
  (admissible_empty (F := F)).exists_preferred.imp fun _ h => h.2

theorem Preferred.eq_of_subset (hS : F.Preferred S) (hT : F.Admissible T) (h : S ⊆ T) :
    S = T := h.antisymm (hS.le_of_ge hT h)

theorem Preferred.complete (hS : F.Preferred S) : F.Complete S := by
  refine ⟨hS.prop, fun a ha => ?_⟩
  rw [hS.eq_of_subset (hS.prop.insert ha) (Set.subset_insert a S)]
  exact Set.mem_insert a S

/-- A preferred extension that does not attack an admissible set contains it. -/
theorem Preferred.subset_of_not_attacks (hS : F.Preferred S) (hT : F.Admissible T)
    (h : ∀ a ∈ S, ∀ b ∈ T, ¬ F.attacks a b) : T ⊆ S := by
  rw [hS.eq_of_subset (hS.prop.union hT h) Set.subset_union_left]
  exact Set.subset_union_right

theorem grounded_subset_of_closed (h : ∀ a, F.Defends S a → a ∈ S) : F.grounded ⊆ S :=
  F.characteristic.lfp_le h

theorem Complete.grounded_subset (h : F.Complete S) : F.grounded ⊆ S :=
  grounded_subset_of_closed h.mem_of_defends

theorem Preferred.grounded_subset (h : F.Preferred S) : F.grounded ⊆ S :=
  h.complete.grounded_subset

theorem mem_grounded : a ∈ F.grounded ↔ F.Defends F.grounded a := by
  conv_lhs => rw [grounded, ← F.characteristic.map_lfp]
  rfl

theorem grounded_complete : F.Complete F.grounded := by
  obtain ⟨P, hP⟩ := exists_preferred (F := F)
  exact ⟨⟨hP.prop.conflictFree.mono hP.grounded_subset, fun _ => mem_grounded.1⟩,
    fun _ => mem_grounded.2⟩

open Classical in
/-- Labels given to the grounded extension and to what it attacks, and a condition on the other
arguments. -/
theorem grounded_units_iff {O : Set α} {P : α → Prop} :
    (∀ a, if a ∈ F.grounded then a ∈ S
      else if a ∈ F.attackedBy F.grounded then a ∈ O else P a) ↔
      F.grounded ⊆ S ∧ F.attackedBy F.grounded ⊆ O ∧
        ∀ a, a ∉ F.grounded → a ∉ F.attackedBy F.grounded → P a := by
  constructor
  · intro h
    refine ⟨fun a ha => ?_, fun a ha => ?_, fun a hin hout => ?_⟩
    · have hunit := h a
      rwa [if_pos ha] at hunit
    · have hin : a ∉ F.grounded := fun hin =>
        grounded_complete.admissible.conflictFree.notMem_attackedBy hin ha
      have hunit := h a
      rwa [if_neg hin, if_pos ha] at hunit
    · have hunit := h a
      rwa [if_neg hin, if_neg hout] at hunit
  · rintro ⟨hG, hGo, h⟩ a
    split_ifs with hin hout
    · exact hG hin
    · exact hGo hout
    · exact h a hin hout

theorem grounded_isLeast_complete : IsLeast {S | F.Complete S} F.grounded :=
  ⟨grounded_complete, fun _ h => h.grounded_subset⟩

theorem ConflictFree.notMem_of_grounded_attacks (hS : F.ConflictFree S) (hG : F.grounded ⊆ S)
    (ha : a ∈ F.attackedBy F.grounded) : a ∉ S :=
  fun h => hS.notMem_attackedBy h (attackedBy_mono hG ha)

/-- A complete extension contains no argument that the grounded extension attacks. -/
theorem Complete.notMem_of_grounded_attacks (hS : F.Complete S)
    (ha : a ∈ F.attackedBy F.grounded) : a ∉ S :=
  hS.admissible.conflictFree.notMem_of_grounded_attacks hS.grounded_subset ha

theorem Stable.complete (hS : F.Stable S) : F.Complete S := by
  refine ⟨⟨hS.conflictFree, fun a ha b hba => ?_⟩, fun a ha => ?_⟩
  · exact hS.attacked b fun hb => hS.conflictFree b hb a ha hba
  · by_contra h
    obtain ⟨b, hb, hba⟩ := hS.attacked a h
    exact hS.conflictFree.notMem_attackedBy hb (ha b hba)

theorem Stable.eq_of_conflictFree (hS : F.Stable S) (hT : F.ConflictFree T) (h : S ⊆ T) :
    S = T := by
  apply h.antisymm
  intro a ha
  by_contra haS
  exact hT.notMem_attackedBy ha (attackedBy_mono h (hS.attacked a haS))

theorem Stable.eq_of_subset (hS : F.Stable S) (hT : F.Stable T) (h : S ⊆ T) : S = T :=
  hS.eq_of_conflictFree hT.conflictFree h

theorem Stable.preferred (hS : F.Stable S) : F.Preferred S := by
  refine ⟨hS.complete.admissible, fun T hT h => ?_⟩
  exact (hS.eq_of_conflictFree hT.conflictFree h).superset

/-- Credulous acceptance is the same for admissible, complete and preferred sets. -/
theorem exists_preferred_mem_iff : (∃ S, F.Preferred S ∧ a ∈ S) ↔ ∃ S, F.Admissible S ∧ a ∈ S := by
  constructor
  · rintro ⟨S, hS, ha⟩
    exact ⟨S, hS.prop, ha⟩
  · rintro ⟨S, hS, ha⟩
    obtain ⟨P, hSP, hP⟩ := hS.exists_preferred
    exact ⟨P, hP, hSP ha⟩

theorem exists_complete_mem_iff : (∃ S, F.Complete S ∧ a ∈ S) ↔ ∃ S, F.Admissible S ∧ a ∈ S := by
  constructor
  · rintro ⟨S, hS, ha⟩
    exact ⟨S, hS.admissible, ha⟩
  · intro h
    obtain ⟨P, hP, ha⟩ := exists_preferred_mem_iff.2 h
    exact ⟨P, hP.complete, ha⟩

end Framework

end TaasFudge
