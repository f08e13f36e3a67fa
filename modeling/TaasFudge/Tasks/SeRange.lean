import TaasFudge.Tasks.Shown

/-! # SE-SST and SE-STG

The range grows with every model until no argument can be added to it.
-/

namespace TaasFudge

open Dimacs

variable {n : ℕ}

/-- The solver object, the labelled arguments, the IN arguments of the last model and a
temporary set. -/
structure SeRangeState (n : ℕ) where
  solver : IpasirSolver
  notUndec : RaSet n
  inArg : RaSet n
  temp : RaSet n

section Program
variable (ω : Oracle) (aaf : AAF n) (grounded : Labeling) (inVars outVars : Fin n → ℤ)

/-- Newly labelled arguments go to the temporary set, unlabelled ones to the clause. -/
def seRangeRead (solver : IpasirSolver) (st : SeRangeState n) :
    Prog World (SeRangeState n × List ℤ) :=
  (List.finRange n).foldlM (fun (p : SeRangeState n × List ℤ) (i : Fin n) => do
    let new ← pure !p.1.notUndec.contains i <&&> satEitherPos solver (inVars i) (outVars i)
    let p ← if new then pure ({ p.1 with temp := p.1.temp.add i }, p.2)
      else do
        let undec ← satNeg solver (inVars i) <&&> satNeg solver (outVars i)
        pure (if undec then (p.1, p.2 ++ [inVars i, outVars i]) else p)
    let isIn ← satPos solver (inVars i)
    pure (if isIn then ({ p.1 with inArg := p.1.inArg.add i }, p.2) else p)) (st, [])

def seRangeRound (st : SeRangeState n) :
    Prog World (LoopStep (SeRangeState n) (RaSet n)) := do
  let (sat, solver) ← satSolve ω st.solver
  if sat = 20 then pure (.exit st.inArg)
  else
    let (st, clause) ← seRangeRead inVars outVars solver { st with inArg := st.inArg.reset }
    let p := st.temp.elementsArr.foldl (fun (p : RaSet n × IpasirSolver) i =>
      (p.1.add i, satAddClause2 p.2 (inVars i) (outVars i)))
      (st.notUndec, satAddClause solver clause clause.length)
    pure (.again { st with solver := p.2, notUndec := p.1, temp := st.temp.reset })

/-- The body shared by the two tasks, which differ in the encoder. -/
def solveSeRange (encode : IpasirSolver → (Fin n → ℤ) → (Fin n → ℤ) → AAF n → Labeling →
    Bool × IpasirSolver) : Prog World Unit := do
  let (inVars, outVars, _) := numberPairs n 1
  let (allGrounded, solver) := encode satInit inVars outVars aaf grounded
  if allGrounded then printf (grounded.printI23 aaf ++ "\n")
  else
    -- at least one argument is labelled
    let solver := (List.finRange n).foldl (fun solver (i : Fin n) =>
      satAdd (satAdd solver (inVars i)) (outVars i)) solver
    let inArg ← Prog.loop (seRangeRound ω inVars outVars)
      ⟨satAdd solver 0, RaSet.initEmpty n, RaSet.initEmpty n, RaSet.initEmpty n⟩
    printf (inArg.printI23 aaf)

def solveSesst : Prog World Unit := solveSeRange ω aaf grounded addAdmTestClauses
def solveSestg : Prog World Unit := solveSeRange ω aaf grounded addCfTestClauses

/-- What the tasks print, as the set they hold at the end. -/
def seRangeShown (encode : IpasirSolver → (Fin n → ℤ) → (Fin n → ℤ) → AAF n → Labeling →
    Bool × IpasirSolver) : Prog World (Shown n) :=
  let (inVars, outVars, _) := numberPairs n 1
  let (allGrounded, solver) := encode satInit inVars outVars aaf grounded
  if allGrounded then pure (grounded.shown n)
  else do
    let solver := (List.finRange n).foldl (fun solver (i : Fin n) =>
      satAdd (satAdd solver (inVars i)) (outVars i)) solver
    let inArg ← Prog.loop (seRangeRound ω inVars outVars)
      ⟨satAdd solver 0, RaSet.initEmpty n, RaSet.initEmpty n, RaSet.initEmpty n⟩
    pure inArg.shown

theorem solveSeRange_eq (encode : IpasirSolver → (Fin n → ℤ) → (Fin n → ℤ) → AAF n → Labeling →
    Bool × IpasirSolver) : solveSeRange ω aaf grounded encode = (do
      let s ← seRangeShown ω aaf grounded encode
      printf (s.line aaf)) := by
  rw [solveSeRange, seRangeShown]
  dsimp only
  split_ifs
  · rw [pure_bind, Labeling.shown_line]
  · simp only [bind_assoc, pure_bind, RaSet.shown_line]

end Program

end TaasFudge
