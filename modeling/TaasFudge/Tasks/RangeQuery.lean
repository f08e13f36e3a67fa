import TaasFudge.Argumentation.Range
import TaasFudge.Tasks.Reading

/-! # Decision tasks for extensions of maximal range

One program for DC-SST, DS-SST, DC-STG and DS-STG. An outer solver proposes a
labelling with the argument as sought, an inner solver climbs in range from it; if
the climb ends below a labelling of larger range that fails the query, the outer
solver must leave that range.
-/

namespace TaasFudge

open Dimacs

variable {n : ℕ}

/-- The inner solver object, the set of arguments that stay labelled, and the IN arguments of
the last labelling. -/
structure RangeState (n : ℕ) where
  inner : IpasirSolver
  notUndec : RaSet n
  inArg : RaSet n

section Growing
variable (inVars outVars : Fin n → ℤ) (arg : Fin n)

def RangeState.keepLabelled (st : RangeState n) (i : Fin n) : RangeState n :=
  { st with
    inner := satAddClause2 st.inner (inVars i) (outVars i)
    notUndec := st.notUndec.add i }

def RangeState.takeIn (st : RangeState n) (isIn : Bool) (i : Fin n) : RangeState n :=
  if isIn then { st with inArg := st.inArg.add i } else st

/-- The labelling found by the outer solver is the first one of the inner loop. -/
def rangeStart (solver : IpasirSolver) (st : RangeState n) :
    Prog World (RangeState n × List ℤ) :=
  (List.finRange n).foldlM (fun (p : RangeState n × List ℤ) (i : Fin n) => do
    let isLabelled ← satEitherPos solver (inVars i) (outVars i)
    if isLabelled then
      let isIn ← satPos solver (inVars i)
      pure ((p.1.takeIn isIn i).keepLabelled inVars outVars i, p.2)
    else pure (p.1, p.2 ++ [inVars i, outVars i])) (st, [])

/-- The growth of SST: all values are read before the object is changed. -/
def growBuffered (st : RangeState n) : Prog World (RangeState n × List ℤ) := do
  let vars ← (List.finRange n).foldlM (fun (vars : RaSet n × RaSet n) (i : Fin n) => do
    let isLabelled ← satEitherPos st.inner (inVars i) (outVars i)
    let isIn ← satPos st.inner (inVars i)
    pure (if isLabelled then vars.1.add i else vars.1, if isIn then vars.2.add i else vars.2))
    (RaSet.initEmpty n, RaSet.initEmpty n)
  pure ((List.finRange n).foldl (fun (p : RangeState n × List ℤ) (i : Fin n) =>
    if vars.1.contains i then
      let st := if !p.1.notUndec.contains i && decide (arg ≠ i)
        then p.1.keepLabelled inVars outVars i else p.1
      (st.takeIn (vars.2.contains i) i, p.2)
    else (p.1, p.2 ++ [inVars i, outVars i])) (st, []))

def growInPlaceAt (p : RangeState n × List ℤ) (i : Fin n) : Prog World (RangeState n × List ℤ) := do
  let isLabelled ← satEitherPos p.1.inner (inVars i) (outVars i)
  if isLabelled then
    let st := if !p.1.notUndec.contains i && decide (arg ≠ i)
      then p.1.keepLabelled inVars outVars i else p.1
    let isIn ← satPos st.inner (inVars i)
    pure (st.takeIn isIn i, p.2)
  else pure (p.1, p.2 ++ [inVars i, outVars i])

/-- The growth of STG: values are read from the object that is being changed. -/
def growInPlace (st : RangeState n) : Prog World (RangeState n × List ℤ) :=
  (List.finRange n).foldlM (growInPlaceAt inVars outVars arg) (st, [])

end Growing

/-- What distinguishes the tasks: the encoder, whether an extension with or without the
argument is sought, how a labelling grows, and whether YES is followed by a witness when
the grounded labeling is total. -/
structure RangeTask (n : ℕ) where
  encode : IpasirSolver → (Fin n → ℤ) → (Fin n → ℤ) → AAF n → Labeling → Bool × IpasirSolver
  sought : Bool
  grow : (Fin n → ℤ) → (Fin n → ℤ) → Fin n → RangeState n → Prog World (RangeState n × List ℤ)
  witnessAfterYes : Bool

section Program
variable (ω : Oracle) (task : RangeTask n) (aaf : AAF n) (grounded : Labeling) (arg : Fin n)
  (doPrint : Bool) (inVars outVars : Fin n → ℤ)

def RangeTask.literal : ℤ := if task.sought then inVars arg else -inVars arg

/-- A round of the inner loop. It ends with an answer, or with the outer object after it has
been told to leave the range reached. -/
def rangeInner (solver : IpasirSolver) (st : RangeState n) :
    Prog World (LoopStep (RangeState n) (Option Bool × IpasirSolver)) := do
  let inner ← satAssume st.inner (task.literal arg inVars)
  let (sat, inner) ← satSolve ω inner
  if sat = 20 then
    -- is there a larger range at all?
    let (sat, _) ← satSolve ω inner
    if sat = 20 then
      report doPrint task.sought (printf (st.inArg.printI23 aaf))
      pure (.exit (some task.sought, solver))
    else
      let solver := (List.finRange n).foldl (fun (solver : IpasirSolver) (i : Fin n) =>
        if !st.notUndec.contains i then satAdd (satAdd solver (inVars i)) (outVars i)
        else solver) solver
      pure (.exit (none, satAdd solver 0))
  else
    let (st, clause) ← task.grow inVars outVars arg
      { st with inner := inner, inArg := st.inArg.reset }
    pure (.again { st with inner := satAddClause st.inner clause clause.length })

def rangeOuter (solver : IpasirSolver) : Prog World (LoopStep IpasirSolver Bool) := do
  let solver ← satAssume solver (task.literal arg inVars)
  let (sat, solver) ← satSolve ω solver
  if sat = 20 then
    report doPrint (!task.sought) (pure ())
    pure (.exit !task.sought)
  else
    let inner := (task.encode satInit inVars outVars aaf grounded).2
    let (st, clause) ← rangeStart inVars outVars solver
      ⟨inner, RaSet.initEmpty n, RaSet.initEmpty n⟩
    let st := { st with inner := satAddClause st.inner clause clause.length }
    let (found, solver) ← Prog.loop
      (rangeInner ω task aaf arg doPrint inVars outVars solver) st
    match found with
    | some answer => pure (.exit answer)
    | none => pure (.again solver)

def rangeQuery : Prog World Bool := do
  let (inVars, outVars, _) := numberPairs n 1
  let (allGrounded, solver) := task.encode satInit inVars outVars aaf grounded
  if allGrounded then
    if grounded.labIn.get arg then
      report doPrint true (if task.witnessAfterYes
        then printf (grounded.printI23 aaf ++ "\n") else pure ())
      pure true
    else
      report doPrint false (printf (grounded.printI23 aaf ++ "\n"))
      pure false
  else Prog.loop (rangeOuter ω task aaf grounded arg doPrint inVars outVars) solver

end Program

section Tasks
variable (ω : Oracle) (aaf : AAF n) (grounded : Labeling) (arg : Fin n) (doPrint : Bool)

def dcsst (n : ℕ) : RangeTask n := ⟨addAdmTestClauses, true, growBuffered, true⟩
def dssst (n : ℕ) : RangeTask n := ⟨addAdmTestClauses, false, growBuffered, false⟩
def dcstg (n : ℕ) : RangeTask n := ⟨addCfTestClauses, true, growInPlace, true⟩
def dsstg (n : ℕ) : RangeTask n := ⟨addCfTestClauses, false, growInPlace, true⟩

def solveDcsst : Prog World Bool := rangeQuery ω (dcsst n) aaf grounded arg doPrint
def solveDssst : Prog World Bool := rangeQuery ω (dssst n) aaf grounded arg doPrint
def solveDcstg : Prog World Bool := rangeQuery ω (dcstg n) aaf grounded arg doPrint
def solveDsstg : Prog World Bool := rangeQuery ω (dsstg n) aaf grounded arg doPrint

end Tasks

end TaasFudge
