import TaasFudge.Tasks.Reading

/-! # Tasks answered by one encoding

Complete and stable extensions are models of their encodings: DC-CO, the stable
tasks, and the three counting tasks.
-/

namespace TaasFudge

open Dimacs

variable {n : ℕ}

section Program
variable (ω : Oracle) (aaf : AAF n) (grounded : Labeling) (arg : Fin n) (doPrint : Bool)

def solveDcco : Prog World Bool := do
  let (inVars, outVars, _) := numberPairs n 1
  let solver := addComTestClauses satInit inVars outVars aaf grounded
  let solver ← satAssume solver (inVars arg)
  let (sat, solver) ← satSolve ω solver
  if sat = 20 then
    report doPrint false (pure ())
    pure false
  else
    report doPrint true (if printWitness then printModel solver inVars argNumber else pure ())
    pure true

def solveSest : Prog World Unit := do
  let (inVars, _) := numberVars n 1
  let solver := addStbTestClauses satInit inVars aaf grounded
  let (sat, solver) ← satSolve ω solver
  if sat = 20 then printf "NO\n"
  else printModel solver inVars aaf.ids2arguments

def solveDcst : Prog World Bool := do
  let (inVars, _) := numberVars n 1
  let solver := addStbTestClauses satInit inVars aaf grounded
  let solver ← satAssume solver (inVars arg)
  let (sat, solver) ← satSolve ω solver
  if sat = 20 then
    report doPrint false (pure ())
    pure false
  else
    report doPrint true (if printWitness then printModel solver inVars argNumber else pure ())
    pure true

def solveDsst : Prog World Bool := do
  let (inVars, _) := numberVars n 1
  let solver := addStbTestClauses satInit inVars aaf grounded
  -- is there any stable extension?
  let (sat, solver) ← satSolve ω solver
  if sat = 20 then
    report doPrint true (pure ())
    pure true
  else if grounded.labIn.get arg then
    report doPrint true (pure ())
    pure true
  else if grounded.labOut.get arg then
    -- the extension found does not contain the argument
    report doPrint false (if printWitness then printModel solver inVars argNumber else pure ())
    pure false
  else
    let solver ← satAssume solver (-inVars arg)
    let (sat, solver) ← satSolve ω solver
    if sat = 20 then
      report doPrint true (pure ())
      pure true
    else
      report doPrint false (if printWitness then printModel solver inVars argNumber else pure ())
      pure false

/-- A round of counting stable extensions: supersets of the complement remain. The counter is an
`int`. -/
def cestRound (inVars : Fin n → ℤ) (st : IpasirSolver × Int32) :
    Prog World (LoopStep (IpasirSolver × Int32) Int32) := do
  let (sat, solver) ← satSolve ω st.1
  if sat = 10 then
    let clause ← readNegatives solver inVars
    if clause.length = 0 then pure (.exit (st.2 + 1))
    else pure (.again (satAddClause solver clause clause.length, st.2 + 1))
  else pure (.exit st.2)

def solveCest : Prog World Unit := do
  let (inVars, _) := numberVars n 1
  let solver := addStbTestClauses satInit inVars aaf grounded
  let stbCnt ← Prog.loop (cestRound ω inVars) (solver, 0)
  printf (toString stbCnt ++ "\n")

def cecoRound (inVars : Fin n → ℤ) (st : IpasirSolver × Int32) :
    Prog World (LoopStep (IpasirSolver × Int32) Int32) := do
  let (sat, solver) ← satSolve ω st.1
  if sat = 10 then
    let clause ← (List.finRange n).foldlM (fun (clause : List ℤ) (i : Fin n) => do
      let pos ← satPos solver (inVars i)
      pure (if pos then clause ++ [-inVars i] else clause ++ [inVars i])) []
    if clause.length = 0 then pure (.exit (st.2 + 1))
    else pure (.again (satAddClause solver clause clause.length, st.2 + 1))
  else pure (.exit st.2)

def solveCeco : Prog World Unit := do
  let (inVars, outVars, _) := numberPairs n 1
  let solver := addComTestClauses satInit inVars outVars aaf grounded
  let coCnt ← Prog.loop (cecoRound ω inVars) (solver, 0)
  printf (toString coCnt ++ "\n")

/-- The growth of one preferred extension: the object, the sets `admSet` and `temp`, and
`noFurther`. -/
structure CeprState (n : ℕ) where
  solver : IpasirSolver
  admSet : RaSet n
  temp : RaSet n
  noFurther : Bool

/-- IN arguments go to the temporary set, arguments that are not IN to the clause. -/
def ceprRead (inVars : Fin n → ℤ) (solver : IpasirSolver) (temp : RaSet n) :
    Prog World (RaSet n × List ℤ) :=
  (List.finRange n).foldlM (fun (p : RaSet n × List ℤ) (i : Fin n) => do
    let pos ← satPos solver (inVars i)
    if pos then pure (p.1.add i, p.2)
    else
      let neg ← satNeg solver (inVars i)
      pure (if neg then (p.1, p.2 ++ [inVars i]) else p)) (temp, [])

def ceprGrow (inVars : Fin n → ℤ) (st : CeprState n) :
    Prog World (LoopStep (CeprState n) (CeprState n)) := do
  let st := { st with temp := st.temp.reset }
  let (sat, solver) ← satSolve ω st.solver
  if sat = 20 then pure (.exit { st with solver := solver })
  else
    let (temp, clause) ← ceprRead inVars solver st.temp
    let solver := satAddClause solver clause clause.length
    let (admSet, solver) ← temp.elementsArr.foldlM (fun (p : RaSet n × IpasirSolver) i => do
      let solver ← satAssume p.2 (inVars i)
      pure (p.1.add i, solver)) (st.admSet, solver)
    pure (.again ⟨solver, admSet, temp, false⟩)

/-- A round of counting preferred extensions: sets that are not inside the one found remain. -/
def ceprRound (inVars : Fin n → ℤ) (p : CeprState n × Int32) :
    Prog World (LoopStep (CeprState n × Int32) Int32) := do
  let st ← Prog.loop (ceprGrow ω inVars)
    { p.1 with admSet := p.1.admSet.reset, noFurther := true }
  if st.noFurther then pure (.exit p.2)
  else
    let clause := (List.finRange n).foldl (fun (clause : List ℤ) (i : Fin n) =>
      if !st.admSet.contains i then clause ++ [inVars i] else clause) []
    pure (.again ({ st with solver := satAddClause st.solver clause clause.length }, p.2 + 1))

def solveCepr : Prog World Unit := do
  let (inVars, outVars, _) := numberPairs n 1
  let solver := (addAdmTestClauses satInit inVars outVars aaf grounded).2
  -- at least one argument is in the set
  let solver := (List.finRange n).foldl (fun solver (i : Fin n) => satAdd solver (inVars i)) solver
  let cntPr ← Prog.loop (ceprRound ω inVars)
    (⟨satAdd solver 0, RaSet.initEmpty n, RaSet.initEmpty n, true⟩, 0)
  -- without a non-empty preferred extension the empty set is the only one
  printf (toString (if cntPr = 0 then 1 else cntPr) ++ "\n")

end Program

end TaasFudge
