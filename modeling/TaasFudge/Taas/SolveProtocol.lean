import TaasFudge.Program.Cost
import TaasFudge.Taas.Solve
import TaasFudge.Tasks.Protocol

/-! # Dispatching and the call protocol

What `taasSolve` hands over respects the protocol of ipasir.h, except for queries about stage
semantics on some frameworks.
-/

namespace TaasFudge

open Dimacs Prog

variable {n : ℕ}

/-- Queries for stage semantics are asked of allowed frameworks only. -/
def TaskSpecification.Allowed (task : TaskSpecification n) (aaf : AAF n) : Prop :=
  ∀ a, task.arg = some a →
    (task.track = "DC-STG" → (TaskCall.dcstg a true).Allowed aaf) ∧
    (task.track = "DS-STG" → (TaskCall.dsstg a true).Allowed aaf)

/-- A run with an outcome keeps the protocol as well. -/
theorem Respects.total {α : Type} {p : Prog World α} {Q : α → World → Prop} {R : α → Prop} {w : World}
    (h : Respects p R) (hQ : Total p Q w) :
    Total p (fun a w' => Q a w' ∧ (w.protocolOk = true → w'.protocolOk = true)) w := by
  cases hw : w.protocolOk with
  | false => exact hQ.mono fun _ _ hQ => ⟨hQ, nofun⟩
  | true => exact (hQ.and_within fun k => h k w hw).mono fun _ _ hQ => ⟨hQ.1, fun _ => hQ.2.1⟩

section Switch
variable (ω : SatOracle) {aaf : AAF n} {task : TaskSpecification n}

theorem respects_undefined {α : Type} {Q : α → Prop} :
    Respects (undefined : Prog World α) Q := fun _ _ hw => hw

theorem respects_withArg {α : Type} {f : Fin n → Prog World α} {Q : α → Prop}
    (h : ∀ a, task.arg = some a → Respects (f a) Q) : Respects (withArg task f) Q := by
  rw [withArg]
  cases harg : task.arg with
  | none => exact respects_undefined
  | some a => exact h a harg

theorem respects_discard {α : Type} {p : Prog World α} (h : Respects p fun _ => True) :
    Respects (discard p) fun _ => True := h.bind fun _ _ => Keeps.pure trivial

theorem respects_ite {α : Type} {P : Prop} [Decidable P] {p q : Prog World α} {Q : α → Prop}
    (hp : P → Respects p Q) (hq : Respects q Q) : Respects (if P then p else q) Q := by
  split_ifs with h
  · exact hp h
  · exact hq

theorem respects_query {f : Fin n → Prog World Bool}
    (h : ∀ a, task.arg = some a → Respects (f a) fun _ => True) :
    Respects (withArg task fun a => discard (f a)) fun _ => True :=
  respects_withArg fun a ha => respects_discard (h a ha)

theorem respects_solveSwitch (h : task.Allowed aaf) :
    Respects (solveSwitch ω.answer task aaf (computeGrounded aaf).1) fun _ => True := by
  have hideal : Respects (do
      let ideal ← computeIdeal ω.answer aaf (computeGrounded aaf).1
      withArg task fun arg => printf (answer (ideal.contains arg))
      printf (ideal.printI23 aaf)) fun _ => True :=
    (respects_computeIdeal ω aaf _).bind fun _ _ =>
      (respects_withArg fun _ _ => respects_printf _).bind fun _ _ => respects_printf _
  rw [solveSwitch]
  apply respects_ite fun _ => respects_query fun a _ => respects_solveDspr ω aaf _ a true
  apply respects_ite fun _ => respects_solveSeid ω aaf _
  apply respects_ite fun _ => respects_solveEapr ω aaf _
  apply respects_ite fun _ => respects_query fun a _ => respects_solveDcco ω aaf _ a true
  apply respects_ite fun _ => respects_solveSest ω aaf _
  apply respects_ite fun _ => respects_query fun a _ => respects_solveDcst ω aaf _ a true
  apply respects_ite fun _ => respects_query fun a _ => respects_solveDsst ω aaf _ a true
  apply respects_ite fun _ => hideal
  apply respects_ite fun _ => respects_solveSepr ω aaf _ none
  apply respects_ite fun _ => respects_solveSeRange ω aaf _ addAdmTestClauses
  apply respects_ite fun _ => respects_solveSeRange ω aaf _ addCfTestClauses
  apply respects_ite fun _ => respects_query fun a _ => respects_solveDcsst ω aaf _ a true
  apply respects_ite fun _ => respects_query fun a _ => respects_solveDssst ω aaf _ a true
  apply respects_ite fun ht => respects_query fun a ha => respects_solveDcstg ω ((h a ha).1 ht)
  apply respects_ite fun ht => respects_query fun a ha => respects_solveDsstg ω ((h a ha).2 ht)
  apply respects_ite fun _ => respects_solveCest ω aaf _
  apply respects_ite fun _ => respects_solveCeco ω aaf _
  apply respects_ite fun _ => respects_solveCepr ω aaf _
  exact Keeps.pure trivial

theorem respects_argIs (tracks : List String) (bits : BitSet) :
    Respects (argIs task tracks bits) fun b => b = true → task.track ∈ tracks := by
  apply respects_ite
  · exact fun ht => respects_withArg fun _ _ => Keeps.pure fun _ => ht
  · exact Keeps.pure nofun

theorem TaskSpecification.Allowed.of_ne (hdc : task.track ≠ "DC-STG")
    (hds : task.track ≠ "DS-STG") : task.Allowed aaf :=
  fun _ _ => ⟨fun ht => absurd ht hdc, fun ht => absurd ht hds⟩

theorem ite_ne {α : Type} {P : Prop} [Decidable P] {x y z : α} (hx : x ≠ z) (hy : y ≠ z) :
    (if P then x else y) ≠ z := by
  split_ifs
  · exact hx
  · exact hy

theorem respects_taasSolve (h : task.Allowed aaf) :
    Respects (taasSolve aaf task (solveSwitch ω.answer)) fun _ => True := by
  have hdc : ∀ {track}, track ∈ ["DC-CO", "DC-PR", "DC-SST", "DC-ID"] →
      track ≠ "DC-STG" ∧ track ≠ "DS-STG" := by decide +revert
  have hds : ∀ {track}, track ∈ ["DS-PR", "DS-SST", "DS-ID"] →
      track ≠ "DC-STG" ∧ track ≠ "DS-STG" := by decide +revert
  rw [taasSolve]
  apply respects_ite fun _ => respects_printf _
  apply respects_ite fun _ => (respects_withArg fun _ _ => respects_printf _).bind
    fun _ _ => respects_printf _
  apply (respects_argIs _ _).bind
  intro b hb
  apply respects_ite
  · intro hin
    obtain ⟨hne, hne'⟩ := hdc (hb hin)
    apply (respects_printf _).bind
    intro _ _
    apply respects_ite _ (Keeps.pure trivial)
    intro _
    apply respects_ite fun _ => respects_printf _
    apply respects_solveSwitch ω
    apply TaskSpecification.Allowed.of_ne
    · exact ite_ne (by decide) (ite_ne (by decide) (ite_ne (by decide) hne))
    · exact ite_ne (by decide) (ite_ne (by decide) (ite_ne (by decide) hne'))
  apply (respects_argIs _ _).bind
  intro _ _
  apply respects_ite fun _ => respects_printf _
  apply (respects_argIs _ _).bind
  intro _ _
  apply respects_ite fun _ => respects_printf _
  apply (respects_argIs _ _).bind
  intro b hb
  apply respects_ite
  · intro hout
    obtain ⟨hne, hne'⟩ := hds (hb hout)
    apply (respects_printf _).bind
    intro _ _
    apply respects_ite _ (Keeps.pure trivial)
    intro _
    apply respects_solveSwitch ω
    apply TaskSpecification.Allowed.of_ne
    · exact ite_ne (by decide) (ite_ne (by decide) (ite_ne (by decide) hne))
    · exact ite_ne (by decide) (ite_ne (by decide) (ite_ne (by decide) hne'))
  exact respects_solveSwitch ω h

end Switch

section Broken
variable {aaf : AAF n} {task : TaskSpecification n} {a : Fin n}

theorem discard_state {α : Type} (p : Prog World α) (k : ℕ) (w : World) :
    (discard p k w).2 = (p k w).2 := by
  change ((p >>= fun _ => pure ()) k w).2 = _
  rw [bind_run]
  rcases p k w with ⟨_ | _, w'⟩ <;> rfl

theorem taasSolve_stage (ω : Oracle) (aaf : AAF n) (m : Mode) :
    taasSolve aaf ⟨m.track .stg, some a⟩ (solveSwitch ω) =
      solveSwitch ω ⟨m.track .stg, some a⟩ aaf (computeGrounded aaf).1 :=
  taasSolve_of_not_settled (by cases m <;> exact id)

/-- A query for stage semantics about any other framework breaks the protocol. -/
theorem exists_broken (h : ¬ task.Allowed aaf) : ∃ ω : TotalOracle,
    Broken (taasSolve aaf task (solveSwitch ω.answer) 1 ⟨0, "", true⟩).2 := by
  simp only [TaskSpecification.Allowed, not_forall, not_and_or] at h
  obtain ⟨a, ha, ⟨ht, hnot⟩ | ⟨ht, hnot⟩⟩ := h
  · obtain ⟨ω, hω⟩ := solveDcstg_broken hnot
    refine ⟨ω, ?_⟩
    have htask : task = ⟨Mode.dc.track .stg, some a⟩ := by
      cases task
      subst ht ha
      rfl
    rw [htask, taasSolve_stage, show solveSwitch ω.answer ⟨Mode.dc.track .stg, some a⟩ aaf
      (computeGrounded aaf).1 = discard (solveDcstg ω.answer aaf (computeGrounded aaf).1 a true) by
        simp [solveSwitch, Mode.track, withArg], discard_state]
    exact hω
  · obtain ⟨ω, hω⟩ := solveDsstg_broken hnot
    refine ⟨ω, ?_⟩
    have htask : task = ⟨Mode.ds.track .stg, some a⟩ := by
      cases task
      subst ht ha
      rfl
    rw [htask, taasSolve_stage, show solveSwitch ω.answer ⟨Mode.ds.track .stg, some a⟩ aaf
      (computeGrounded aaf).1 = discard (solveDsstg ω.answer aaf (computeGrounded aaf).1 a true) by
        simp [solveSwitch, Mode.track, withArg], discard_state]
    exact hω

end Broken

end TaasFudge
