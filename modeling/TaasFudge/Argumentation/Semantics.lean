import TaasFudge.Argumentation.Ideal
import TaasFudge.Argumentation.Range

/-! # The semantics of queries

The seven semantics, credulous and sceptical acceptance, and what the grounded
extension decides for each of them.
-/

namespace TaasFudge

inductive Semantics where
  | co | gr | pr | st | sst | id | stg
  deriving DecidableEq

inductive Mode where
  | dc | ds
  deriving DecidableEq

namespace Semantics
variable {α : Type*} {F : Framework α} {E : Set α} {a : α}

def Extension (F : Framework α) : Semantics → Set α → Prop
  | co => F.Complete
  | gr => fun E => E = F.grounded
  | pr => F.Preferred
  | st => F.Stable
  | sst => F.SemiStable
  | id => F.Ideal
  | stg => F.Stage

/-- Every extension other than a stage extension contains the grounded extension. -/
theorem grounded_subset {σ : Semantics} (hσ : σ ≠ stg) (h : σ.Extension F E) : F.grounded ⊆ E := by
  cases σ with
  | co => exact Framework.Complete.grounded_subset h
  | gr => exact (show E = F.grounded from h).ge
  | pr => exact Framework.Preferred.grounded_subset h
  | st => exact (Framework.Stable.complete h).grounded_subset
  | sst => exact Framework.Complete.grounded_subset h.prop
  | id => exact Framework.Ideal.grounded_subset h
  | stg => exact absurd rfl hσ

theorem conflictFree {σ : Semantics} (h : σ.Extension F E) : F.ConflictFree E := by
  cases σ with
  | co => exact h.admissible.conflictFree
  | gr =>
    rw [show E = F.grounded from h]
    exact Framework.grounded_complete.admissible.conflictFree
  | pr => exact h.prop.conflictFree
  | st => exact h.conflictFree
  | sst => exact h.prop.admissible.conflictFree
  | id => exact h.1.admissible.conflictFree
  | stg => exact h.prop

/-- Extensions exist, except that there may be no stable one. -/
theorem exists_extension [Finite α] {σ : Semantics} (hσ : σ ≠ st) : ∃ E, σ.Extension F E := by
  cases σ with
  | co => exact ⟨_, Framework.grounded_complete⟩
  | gr => exact ⟨_, rfl⟩
  | pr => exact Framework.exists_preferred
  | st => exact absurd rfl hσ
  | sst => exact Framework.SemiStable.exists
  | id => exact Framework.exists_ideal
  | stg => exact Framework.Stage.exists

theorem mem_of_grounded {σ : Semantics} (hσ : σ ≠ stg) (ha : a ∈ F.grounded)
    (h : σ.Extension F E) : a ∈ E := grounded_subset hσ h ha

/-- An argument attacked by the grounded extension is in no extension. -/
theorem notMem_of_grounded_attacks {σ : Semantics} (hσ : σ ≠ stg)
    (ha : a ∈ F.attackedBy F.grounded) (h : σ.Extension F E) : a ∉ E :=
  (conflictFree h).notMem_of_grounded_attacks (grounded_subset hσ h) ha

end Semantics

/-- Whether the query for `a` is to be answered with yes. -/
def Mode.Accepts {α : Type*} (F : Framework α) (σ : Semantics) (a : α) : Mode → Prop
  | .dc => ∃ E, σ.Extension F E ∧ a ∈ E
  | .ds => ∀ E, σ.Extension F E → a ∈ E

namespace Mode
variable {α : Type*} {F : Framework α} {σ : Semantics} {a : α}

/-- A grounded argument is sceptically accepted, and credulously if there is an extension. -/
theorem accepts_of_grounded [Finite α] (hσ : σ ≠ .stg) (ha : a ∈ F.grounded) {m : Mode}
    (hm : m = .dc → σ ≠ .st) : m.Accepts F σ a := by
  cases m with
  | dc =>
    obtain ⟨E, hE⟩ := Semantics.exists_extension (F := F) (hm rfl)
    exact ⟨E, hE, Semantics.mem_of_grounded hσ ha hE⟩
  | ds => exact fun E hE => Semantics.mem_of_grounded hσ ha hE

/-- An argument attacked by the grounded extension is not credulously accepted, nor
sceptically if there is an extension. -/
theorem not_accepts_of_grounded_attacks [Finite α] (hσ : σ ≠ .stg)
    (ha : a ∈ F.attackedBy F.grounded) {m : Mode} (hm : m = .ds → σ ≠ .st) :
    ¬ m.Accepts F σ a := by
  cases m with
  | dc =>
    rintro ⟨E, hE, haE⟩
    exact Semantics.notMem_of_grounded_attacks hσ ha hE haE
  | ds =>
    intro h
    obtain ⟨E, hE⟩ := Semantics.exists_extension (F := F) (hm rfl)
    exact Semantics.notMem_of_grounded_attacks hσ ha hE (h E hE)

/-- Membership in the least complete extension is what both queries ask for it, and what the
sceptical query asks for all complete extensions. -/
theorem accepts_gr_iff {m : Mode} : m.Accepts F .gr a ↔ a ∈ F.grounded := by
  cases m with
  | dc => exact ⟨fun ⟨E, hE, ha⟩ => (show E = F.grounded from hE) ▸ ha, fun h => ⟨_, rfl, h⟩⟩
  | ds => exact ⟨fun h => h _ rfl, fun h E hE => (show E = F.grounded from hE).symm ▸ h⟩

theorem ds_accepts_co_iff : Mode.ds.Accepts F .co a ↔ a ∈ F.grounded :=
  ⟨fun h => h _ Framework.grounded_complete, fun h _ hE => hE.grounded_subset h⟩

end Mode

end TaasFudge
