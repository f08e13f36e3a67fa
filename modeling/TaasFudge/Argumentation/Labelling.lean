import TaasFudge.Argumentation.Framework

/-! # Complete labellings

A labelling is complete when every argument has the label its attackers give it. The IN
sets of complete labellings are the complete extensions, and IN determines OUT.
-/

namespace TaasFudge

namespace Framework
variable {α : Type*} (F : Framework α) {S O : Set α}

/-- An argument is IN iff all its attackers are OUT, and OUT iff some attacker is IN; `S` is
IN and `O` is OUT. -/
structure CompleteLabelling (S O : Set α) : Prop where
  disjoint : ∀ a ∈ S, a ∉ O
  in_iff : ∀ a, a ∈ S ↔ ∀ b, F.attacks b a → b ∈ O
  out_iff : ∀ a, a ∈ O ↔ ∃ b ∈ S, F.attacks b a

variable {F}

theorem CompleteLabelling.out_eq (h : F.CompleteLabelling S O) : O = F.attackedBy S :=
  Set.ext h.out_iff

theorem CompleteLabelling.complete (h : F.CompleteLabelling S O) : F.Complete S := by
  have hout := h.out_eq
  refine ⟨⟨?_, ?_⟩, ?_⟩
  · intro a ha b hb hab
    exact h.disjoint b hb ((h.out_iff b).2 ⟨a, ha, hab⟩)
  · intro a ha b hba
    rw [← hout]
    exact (h.in_iff a).1 ha b hba
  · intro a ha
    apply (h.in_iff a).2
    rw [hout]
    exact ha

theorem Complete.labelling (h : F.Complete S) : F.CompleteLabelling S (F.attackedBy S) where
  disjoint _ ha := h.admissible.conflictFree.notMem_attackedBy ha
  in_iff a := ⟨h.admissible.defends a, h.mem_of_defends a⟩
  out_iff _ := Iff.rfl

theorem completeLabelling_iff :
    F.CompleteLabelling S O ↔ F.Complete S ∧ O = F.attackedBy S := by
  constructor
  · exact fun h => ⟨h.complete, h.out_eq⟩
  · rintro ⟨h, rfl⟩
    exact h.labelling

/-- A labelling that leaves no argument undecided is complete iff IN is a stable extension. -/
theorem completeLabelling_compl_iff : F.CompleteLabelling S Sᶜ ↔ F.Stable S := by
  rw [completeLabelling_iff]
  constructor
  · rintro ⟨h, hout⟩
    exact ⟨h.admissible.conflictFree, fun a ha => hout ▸ ha⟩
  · intro h
    refine ⟨h.complete, Set.ext fun a => ?_⟩
    exact ⟨h.attacked a, fun ha haS => h.conflictFree.notMem_attackedBy haS ha⟩

end Framework

end TaasFudge
