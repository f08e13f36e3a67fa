import TaasFudge.Taas.Main

/-! # The program and the call protocol

A command that is about a framework respects the protocol of ipasir.h in every run, unless it is a
query about stage semantics on one of some frameworks.
-/

namespace TaasFudge

open Cmd Dimacs Prog

variable {n : ℕ} {files : Files} {argv : List Word} {task : Cmd.TaskSpecification} {aaf : AAF n}
  {t : TaskSpecification n}

/-- Whatever a right solver answers, and however far the run gets, a command with a task that can
be read makes no call that ipasir.h does not allow, exactly if the task is not a query for stage
semantics about a framework on which its task function breaks the protocol. -/
theorem main_protocol_iff (hhandle : handle solverInformation (options (argv.drop 1)) = .task task)
    (hread : readTask files task = some ⟨n, aaf, t⟩) (next : Char) :
    (∀ (ω : SatOracle) (w : World) (k : ℕ), w.protocolOk = true →
      (main ω.answer files next argv k w).2.protocolOk = true) ↔ t.Allowed aaf := by
  have hmain (ω : Dimacs.Oracle) :
      main ω files next argv = taasSolve aaf t (solveSwitch ω) := by
    rw [main, taasSolveCommand, cmdHandle_eq, hhandle]
    dsimp only
    rw [hread]
  constructor
  · intro h
    by_contra hnot
    obtain ⟨ω, hω⟩ := exists_broken hnot
    have hok := h ω.toSatOracle ⟨0, "", true⟩ 1 rfl
    rw [hmain] at hok
    exact absurd (hω.symm.trans hok) Bool.false_ne_true
  · intro h ω w k hw
    rw [hmain]
    exact (respects_taasSolve ω h).state hw

theorem main_protocol_two :
    (∀ (ω : SatOracle) (w : World) (k : ℕ), w.protocolOk = true →
      (main ω.answer twoFiles 'x' twoCommand k w).2.protocolOk = true) ↔
    TaskSpecification.Allowed ⟨"SE-PR", none⟩ (i23Aaf twoLines) := by
  obtain ⟨task, hhandle, hread⟩ := readTask_two
  exact main_protocol_iff hhandle hread 'x'

end TaasFudge
