import TaasFudge.Argumentation.Framework
import TaasFudge.Argumentation.Range
import TaasFudge.Argumentation.Labelling
import TaasFudge.Argumentation.Ideal
import TaasFudge.Argumentation.Semantics
import TaasFudge.Argumentation.Open
import TaasFudge.Program.Loop
import TaasFudge.Cnf.Dimacs
import TaasFudge.Util.BitSet
import TaasFudge.Util.RaSet
import TaasFudge.Taas.Aaf
import TaasFudge.Taas.Grounded
import TaasFudge.Taas.Labels
import TaasFudge.Taas.Assumption
import TaasFudge.Sat.IpasirSolver
import TaasFudge.Sat.Protocol
import TaasFudge.Tasks.General
import TaasFudge.Tasks.Reading
import TaasFudge.Tasks.Shown
import TaasFudge.Tasks.SePr
import TaasFudge.Tasks.AttackEncoding
import TaasFudge.Tasks.AttackTest
import TaasFudge.Tasks.DsPr
import TaasFudge.Tasks.SeId
import TaasFudge.Tasks.DsId
import TaasFudge.Tasks.EaPr
import TaasFudge.Tasks.RangeQuery
import TaasFudge.Tasks.RangeGrowth
import TaasFudge.Tasks.RangeCorrectness
import TaasFudge.Tasks.SeRange
import TaasFudge.Tasks.Climb
import TaasFudge.Tasks.SeRangeCorrectness
import TaasFudge.Tasks.OpenModels
import TaasFudge.Tasks.Direct
import TaasFudge.Tasks.Stable
import TaasFudge.Tasks.CePr
import TaasFudge.Taas.Solve
import TaasFudge.Taas.Inout
import TaasFudge.Taas.Witness
import TaasFudge.Taas.I23
import TaasFudge.Taas.WitnessLines
import TaasFudge.Taas.Held
import TaasFudge.Taas.MayHold
import TaasFudge.Taas.Spelling
import TaasFudge.Tasks.ClauseArrays
import TaasFudge.Tasks.Complete
import TaasFudge.Tasks.Counting
import TaasFudge.Tasks.Exact
import TaasFudge.Util.RaSetMemory
import TaasFudge.Taas.Cmd
import TaasFudge.Taas.TgfFile
import TaasFudge.Taas.Trimming
import TaasFudge.Taas.Padding
import TaasFudge.Taas.PrintBuffer
import TaasFudge.Taas.Printers
import TaasFudge.Tasks.Respecting
import TaasFudge.Tasks.RangeProtocol
import TaasFudge.Tasks.Protocol
import TaasFudge.Program.Cost
import TaasFudge.Tasks.Searches
import TaasFudge.Taas.Answers
import TaasFudge.Argumentation.Inclusion
import TaasFudge.Argumentation.Renaming
import TaasFudge.Program.Lockstep
import TaasFudge.Cnf.Completion
import TaasFudge.Sat.Alike
import TaasFudge.Tasks.OneSided
import TaasFudge.Tasks.OneSidedRange
import TaasFudge.Tasks.TwoSigns
import TaasFudge.Tasks.OpenDecisions
import TaasFudge.Taas.SearchCounts
import TaasFudge.Taas.AnySolver
import TaasFudge.Taas.Agreement
import TaasFudge.Taas.Command
import TaasFudge.Taas.Main
import TaasFudge.Taas.MainProtocol
import TaasFudge.Tasks.RangeSearches
import TaasFudge.Tasks.TestSearches
