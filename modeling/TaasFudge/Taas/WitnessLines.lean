import TaasFudge.Taas.Solve
import TaasFudge.Taas.Witness
import TaasFudge.Tasks.SeRangeCorrectness

/-! # The witness lines of all tracks

Every task that prints a witness line is the same run up to that line, which then
returns the arguments it holds, followed by the printing of the line.
-/

namespace TaasFudge

open Dimacs

variable {n : ℕ}

def printShown (aaf : AAF n) : Option (Shown n) → Prog World Unit
  | none => pure ()
  | some s => printf (s.line aaf)

def IpasirSolver.shown (solver : IpasirSolver) (vars : Fin n → ℤ) (spelling : Spelling) :
    Shown n where
  ids := positives solver.model vars
  nodup := (List.nodup_finRange n).filter _
  spelling := spelling

section Program
variable (ω : Oracle) (aaf : AAF n) (grounded : Labeling) (arg : Fin n)

/-- The answer of one search, `yes` if there is a model, which is shown by number. -/
def searchShown (solver : IpasirSolver) (vars : Fin n → ℤ) (yes : Bool) :
    Prog World (Option (Shown n)) := do
  let (sat, solver) ← satSolve ω solver
  if sat = 20 then
    printf (answer !yes)
    pure none
  else
    printf (answer yes)
    pure (some (solver.shown vars .numbered))

def dccoShown : Prog World (Option (Shown n)) := do
  let (inVars, outVars, _) := numberPairs n 1
  let solver := addComTestClauses satInit inVars outVars aaf grounded
  let solver ← satAssume solver (inVars arg)
  searchShown ω solver inVars true

def sestShown : Prog World (Option (Shown n)) := do
  let (inVars, _) := numberVars n 1
  let solver := addStbTestClauses satInit inVars aaf grounded
  let (sat, solver) ← satSolve ω solver
  if sat = 20 then
    printf "NO\n"
    pure none
  else pure (some (solver.shown inVars .terminated))

def dcstShown : Prog World (Option (Shown n)) := do
  let (inVars, _) := numberVars n 1
  let solver := addStbTestClauses satInit inVars aaf grounded
  let solver ← satAssume solver (inVars arg)
  searchShown ω solver inVars true

def dsstShown : Prog World (Option (Shown n)) := do
  let (inVars, _) := numberVars n 1
  let solver := addStbTestClauses satInit inVars aaf grounded
  let (sat, solver) ← satSolve ω solver
  if sat = 20 then
    printf (answer true)
    pure none
  else if grounded.labIn.get arg then
    printf (answer true)
    pure none
  else if grounded.labOut.get arg then
    printf (answer false)
    pure (some (solver.shown inVars .numbered))
  else
    let solver ← satAssume solver (-inVars arg)
    searchShown ω solver inVars false

def dsprShown : Prog World (Option (Shown n)) :=
  dsprWith ω aaf grounded arg
    (do
      printf (answer false)
      let s ← seprShown ω aaf grounded none
      pure (some s))
    (fun inVars solver => do
      printf (answer false)
      let initialAdmSet ← readPositives solver inVars (RaSet.initEmpty n)
      let s ← seprShown ω aaf grounded (some initialAdmSet)
      pure (some s))
    (do
      printf (answer true)
      pure none)

def rangeShown (task : RangeTask n) : Prog World (Option (Shown n)) := do
  let (inVars, outVars, _) := numberPairs n 1
  let (allGrounded, solver) := task.encode satInit inVars outVars aaf grounded
  if allGrounded then
    if grounded.labIn.get arg then
      printf (answer true)
      pure (if task.witnessAfterYes then some (grounded.shown n) else none)
    else
      printf (answer false)
      pure (some (grounded.shown n))
  else
    Prog.loop (rangeOuterWith ω task aaf grounded arg inVars outVars
      (fun inArg => do
        printf (answer task.sought)
        pure (some inArg.shown))
      (do
        printf (answer !task.sought)
        pure none)) solver

def switchShown (task : TaskSpecification n) (aaf : AAF n) (grounded : Labeling) :
    Prog World (Option (Shown n)) :=
  if task.track = "DS-PR" then withArg task fun arg => dsprShown ω aaf grounded arg
  else if task.track = "SE-ID" then do
    let ideal ← computeIdeal ω aaf grounded
    pure (some ideal.shown)
  else if task.track = "EA-PR" then do
    solveEapr ω aaf grounded
    pure none
  else if task.track = "DC-CO" ∨ task.track = "DC-PR" then
    withArg task fun arg => dccoShown ω aaf grounded arg
  else if task.track = "SE-ST" then sestShown ω aaf grounded
  else if task.track = "DC-ST" then withArg task fun arg => dcstShown ω aaf grounded arg
  else if task.track = "DS-ST" then withArg task fun arg => dsstShown ω aaf grounded arg
  else if task.track = "DS-ID" ∨ task.track = "DC-ID" then do
    let ideal ← computeIdeal ω aaf grounded
    withArg task fun arg => printf (answer (ideal.contains arg))
    pure (some ideal.shown)
  else if task.track = "SE-PR" then some <$> seprShown ω aaf grounded none
  else if task.track = "SE-SST" then some <$> seRangeShown ω aaf grounded addAdmTestClauses
  else if task.track = "SE-STG" then some <$> seRangeShown ω aaf grounded addCfTestClauses
  else if task.track = "DC-SST" then
    withArg task fun arg => rangeShown ω aaf grounded arg (dcsst n)
  else if task.track = "DS-SST" then
    withArg task fun arg => rangeShown ω aaf grounded arg (dssst n)
  else if task.track = "DC-STG" then
    withArg task fun arg => rangeShown ω aaf grounded arg (dcstg n)
  else if task.track = "DS-STG" then
    withArg task fun arg => rangeShown ω aaf grounded arg (dsstg n)
  else if task.track = "CE-ST" then do
    solveCest ω aaf grounded
    pure none
  else if task.track = "CE-CO" then do
    solveCeco ω aaf grounded
    pure none
  else if task.track = "CE-PR" then do
    solveCepr ω aaf grounded
    pure none
  else pure none

def taasShown (aaf : AAF n) (task : TaskSpecification n) : Prog World (Option (Shown n)) := do
  let grounded := (computeGrounded aaf).1
  if task.track = "SE-GR" ∨ task.track = "SE-CO" then pure (some (grounded.shown n))
  else if task.track = "DC-GR" ∨ task.track = "DS-GR" ∨ task.track = "DS-CO" then
    withArg task fun arg => printf (answer (grounded.labIn.get arg))
    pure (some (grounded.shown n))
  else if ← argIs task ["DC-CO", "DC-PR", "DC-SST", "DC-ID"] grounded.labIn then
    printf (answer true)
    if task.track = "DC-CO" then pure (some (grounded.shown n))
    else
      let track :=
        if task.track = "DC-PR" then "SE-PR"
        else if task.track = "DC-SST" then "SE-SST"
        else if task.track = "DC-ID" then "SE-ID"
        else task.track
      switchShown ω { task with track := track } aaf grounded
  else if ← argIs task ["DC-CO", "DC-PR", "DC-SST", "DC-ID", "DC-ST"] grounded.labOut then
    printf (answer false)
    pure none
  else if ← argIs task ["DS-PR", "DS-ST", "DS-SST", "DS-ID"] grounded.labIn then
    printf (answer true)
    pure none
  else if ← argIs task ["DS-PR", "DS-SST", "DS-ID"] grounded.labOut then
    printf (answer false)
    let track :=
      if task.track = "DS-PR" then "SE-PR"
      else if task.track = "DS-SST" then "SE-SST"
      else if task.track = "DS-ID" then "SE-ID"
      else task.track
    switchShown ω { task with track := track } aaf grounded
  else switchShown ω task aaf grounded

end Program

/-- What follows a search may rely on a model having been found, or on the result 20. -/
theorem satSolve_bind_congr {α : Type} {ω : Oracle} {solver : IpasirSolver}
    {f g : ℤ × IpasirSolver → Prog World α}
    (h : ∀ r, (r.1 ≠ 20 → r.2.state = .sat) → f r = g r) :
    satSolve ω solver >>= f = satSolve ω solver >>= g := by
  funext k w
  rw [Prog.bind_run, Prog.bind_run, satSolve, Prog.atomic]
  dsimp only
  split
  · rw [h _ fun _ => rfl]
  · rw [h _ fun hne => absurd rfl hne]

theorem discard_eq {σ α : Type} (p : Prog σ α) : discard p = p >>= fun _ => pure () :=
  (bind_pure_comp _ p).symm

theorem report_true (b : Bool) (witness : Prog World Unit) :
    report true b witness = printf (answer b) >>= fun _ => witness := rfl

theorem if_printWitness (witness : Prog World Unit) :
    (if printWitness then witness else pure ()) = witness := rfl

/-- Printing the positive values of a model that was found. -/
theorem printModel_shown {solver : IpasirSolver} (h : solver.state = .sat) (vars : Fin n → ℤ)
    (aaf : AAF n) :
    printModel solver vars argNumber = printShown aaf (some (solver.shown vars .numbered)) ∧
      printModel solver vars aaf.ids2arguments =
        printShown aaf (some (solver.shown vars .terminated)) :=
  ⟨printModel_of_sat h argNumber, printModel_of_sat h aaf.ids2arguments⟩

section Equations
variable (ω : Oracle) (aaf : AAF n) (grounded : Labeling) (arg : Fin n)

theorem search_eq (solver : IpasirSolver) (vars : Fin n → ℤ) (yes : Bool) :
    (do
      let (sat, solver) ← satSolve ω solver
      if sat = 20 then
        report true (!yes) (pure ())
        pure !yes
      else
        report true yes (if printWitness then printModel solver vars argNumber else pure ())
        pure yes : Prog World Bool) >>= (fun _ => pure ()) =
    searchShown ω solver vars yes >>= printShown aaf := by
  rw [searchShown]
  simp only [bind_assoc, report_true, if_printWitness]
  apply satSolve_bind_congr
  rintro ⟨sat, solver⟩ hsat
  dsimp only
  split_ifs with h
  · simp [printShown]
  · simp only [bind_assoc, pure_bind, bind_pure_unit, (printModel_shown (hsat h) vars aaf).1]

theorem solveDcco_eq : discard (solveDcco ω aaf grounded arg true) =
    dccoShown ω aaf grounded arg >>= printShown aaf := by
  rw [discard_eq, solveDcco, dccoShown]
  dsimp only
  rw [bind_assoc, bind_assoc]
  apply bind_congr
  intro solver
  exact search_eq ω aaf solver _ true

theorem solveSest_eq : solveSest ω aaf grounded =
    sestShown ω aaf grounded >>= printShown aaf := by
  rw [solveSest, sestShown]
  simp only [bind_assoc]
  apply satSolve_bind_congr
  rintro ⟨sat, solver⟩ hsat
  dsimp only
  split_ifs with h
  · simp [printShown]
  · simp only [pure_bind, (printModel_shown (hsat h) _ aaf).2]

theorem solveDcst_eq : discard (solveDcst ω aaf grounded arg true) =
    dcstShown ω aaf grounded arg >>= printShown aaf := by
  rw [discard_eq, solveDcst, dcstShown]
  dsimp only
  rw [bind_assoc, bind_assoc]
  apply bind_congr
  intro solver
  exact search_eq ω aaf solver _ true

theorem solveDsst_eq : discard (solveDsst ω aaf grounded arg true) =
    dsstShown ω aaf grounded arg >>= printShown aaf := by
  rw [discard_eq, solveDsst, dsstShown]
  dsimp only
  rw [bind_assoc, bind_assoc]
  apply satSolve_bind_congr
  rintro ⟨sat, solver⟩ hsat
  simp only [if_printWitness]
  split_ifs with h hin hout
  · simp [report_true, printShown]
  · simp [report_true, printShown]
  · simp only [report_true, bind_assoc, pure_bind, bind_pure_unit,
      (printModel_shown (hsat h) _ aaf).1]
  · rw [bind_assoc, bind_assoc]
    apply bind_congr
    intro solver
    exact search_eq ω aaf solver _ false

theorem dsprRoundWith_finish {γ δ : Type} {no : (Fin n → ℤ) → IpasirSolver → Prog World γ}
    {no' : (Fin n → ℤ) → IpasirSolver → Prog World δ} {yes : Prog World γ} {yes' : Prog World δ}
    {f : γ → Prog World Unit} {g : δ → Prog World Unit}
    (hno : ∀ inVars solver, no inVars solver >>= f = no' inVars solver >>= g)
    (hyes : yes >>= f = yes' >>= g) (inVars : Fin n → ℤ) (st : IpasirSolver × IpasirSolver) :
    dsprRoundWith ω arg no yes inVars st >>= Prog.finish f =
      dsprRoundWith ω arg no' yes' inVars st >>= Prog.finish g := by
  rw [dsprRoundWith, dsprRoundWith]
  simp only [bind_assoc]
  apply bind_congr
  rintro ⟨sat, attAdmTest⟩
  dsimp only
  split_ifs
  · simp only [bind_assoc, pure_bind, Prog.finish]
    rw [← bind_assoc, hyes, bind_assoc]
  · simp only [bind_assoc]
    apply bind_congr
    rintro ⟨sat, admTest⟩
    dsimp only
    split_ifs
    · simp only [bind_assoc, pure_bind, Prog.finish]
      rw [← bind_assoc, hno, bind_assoc]
    · simp [Prog.finish]

theorem dsprWith_bind_congr {γ δ : Type} {unaccepted : Prog World γ} {unaccepted' : Prog World δ}
    {no : (Fin n → ℤ) → IpasirSolver → Prog World γ}
    {no' : (Fin n → ℤ) → IpasirSolver → Prog World δ} {yes : Prog World γ} {yes' : Prog World δ}
    {f : γ → Prog World Unit} {g : δ → Prog World Unit}
    (hunaccepted : unaccepted >>= f = unaccepted' >>= g)
    (hno : ∀ inVars solver, no inVars solver >>= f = no' inVars solver >>= g)
    (hyes : yes >>= f = yes' >>= g) :
    dsprWith ω aaf grounded arg unaccepted no yes >>= f =
      dsprWith ω aaf grounded arg unaccepted' no' yes' >>= g := by
  rw [dsprWith, dsprWith]
  simp only [bind_assoc]
  apply bind_congr
  intro admTest
  apply bind_congr
  rintro ⟨sat, admTest⟩
  dsimp only
  split_ifs with h
  · exact hunaccepted
  · simp only [bind_assoc]
    apply bind_congr
    intro attAdmTest
    apply bind_congr
    intro admTest
    apply bind_congr
    rintro ⟨sat, admTest⟩
    dsimp only
    split_ifs with hsat
    · exact hno _ admTest
    · apply Prog.loop_bind_congr
      exact dsprRoundWith_finish ω arg hno hyes _

theorem solveDspr_eq : discard (solveDspr ω aaf grounded arg true) =
    dsprShown ω aaf grounded arg >>= printShown aaf := by
  rw [discard_eq, solveDspr_eq_dsprWith, dsprShown]
  apply dsprWith_bind_congr
  · simp [report_true, printShown, solveSepr_eq]
  · simp [report_true, printShown, solveSepr_eq]
  · simp [report_true, printShown]

theorem rangeInnerWith_finish {γ δ : Type} {found : RaSet n → Prog World γ}
    {found' : RaSet n → Prog World δ} {f : γ → Prog World Unit} {g : δ → Prog World Unit}
    (h : ∀ s, found s >>= f = found' s >>= g) (task : RangeTask n) (inVars outVars : Fin n → ℤ)
    (solver : IpasirSolver) (st : RangeState n) :
    rangeInnerWith ω task arg inVars outVars found solver st >>= Prog.finish (fun p =>
      (match p with
        | (result, solver) => (match result with
          | some c => pure (.exit c)
          | none => pure (.again solver) : Prog World (LoopStep IpasirSolver γ))) >>=
        Prog.finish f) =
    rangeInnerWith ω task arg inVars outVars found' solver st >>= Prog.finish (fun p =>
      (match p with
        | (result, solver) => (match result with
          | some c => pure (.exit c)
          | none => pure (.again solver) : Prog World (LoopStep IpasirSolver δ))) >>=
        Prog.finish g) := by
  rw [rangeInnerWith, rangeInnerWith]
  simp only [bind_assoc]
  apply bind_congr
  intro inner
  apply bind_congr
  rintro ⟨sat, inner⟩
  dsimp only
  split_ifs
  · simp only [bind_assoc]
    apply bind_congr
    rintro ⟨sat, inner⟩
    dsimp only
    split_ifs
    · simp only [bind_assoc, pure_bind, Prog.finish]
      rw [← bind_assoc, h, bind_assoc]
    · simp [Prog.finish]
  · simp [Prog.finish]

theorem rangeOuterWith_finish {γ δ : Type} {found : RaSet n → Prog World γ}
    {found' : RaSet n → Prog World δ} {notFound : Prog World γ} {notFound' : Prog World δ}
    {f : γ → Prog World Unit} {g : δ → Prog World Unit} (h : ∀ s, found s >>= f = found' s >>= g)
    (h' : notFound >>= f = notFound' >>= g) (task : RangeTask n) (inVars outVars : Fin n → ℤ)
    (solver : IpasirSolver) :
    rangeOuterWith ω task aaf grounded arg inVars outVars found notFound solver >>=
        Prog.finish f =
      rangeOuterWith ω task aaf grounded arg inVars outVars found' notFound' solver >>=
        Prog.finish g := by
  rw [rangeOuterWith, rangeOuterWith]
  simp only [bind_assoc]
  apply bind_congr
  intro solver
  apply bind_congr
  rintro ⟨sat, solver⟩
  dsimp only
  split_ifs
  · simp only [bind_assoc, pure_bind, Prog.finish]
    rw [← bind_assoc, h', bind_assoc]
  · simp only [bind_assoc]
    apply bind_congr
    rintro ⟨st, clause⟩
    apply Prog.loop_bind_congr
    intro st
    exact rangeInnerWith_finish ω arg h task _ _ solver st

theorem rangeQuery_eq (task : RangeTask n) : discard (rangeQuery ω task aaf grounded arg true) =
    rangeShown ω aaf grounded arg task >>= printShown aaf := by
  rw [discard_eq, rangeQuery, rangeShown]
  dsimp only
  split_ifs with hall hin hyes
  · simp [report_true, printShown]
  · simp [report_true, printShown]
  · simp [report_true, printShown]
  · rw [rangeOuter_eq]
    apply Prog.loop_bind_congr
    intro solver
    apply rangeOuterWith_finish
    · simp [report_true, printShown]
    · simp [report_true, printShown]

theorem withArg_bind {α β : Type} (task : TaskSpecification n) (f : Fin n → Prog World α)
    (g : α → Prog World β) : withArg task f >>= g = withArg task fun arg => f arg >>= g := by
  rw [withArg, withArg]
  cases task.arg with
  | none => rfl
  | some arg => rfl

theorem bind_pure_none (p : Prog World Unit) :
    (do
      p
      pure none) >>= printShown aaf = p := by
  rw [bind_assoc]
  exact bind_pure_unit

theorem ite_eq_bind {aaf : AAF n} {c : Prop} [Decidable c] {p q : Prog World Unit}
    {p' q' : Prog World (Option (Shown n))} (h₁ : p = p' >>= printShown aaf)
    (h₂ : q = q' >>= printShown aaf) :
    (if c then p else q) = (if c then p' else q') >>= printShown aaf := by
  split_ifs
  · exact h₁
  · exact h₂

theorem some_bind (p : Prog World (Shown n)) :
    (some <$> p) >>= printShown aaf = (do
      let s ← p
      printf (s.line aaf)) := by
  rw [map_eq_pure_bind, bind_assoc]
  simp only [pure_bind, printShown]

theorem solveSwitch_eq (task : TaskSpecification n) : solveSwitch ω task aaf grounded =
    switchShown ω task aaf grounded >>= printShown aaf := by
  have hask : ∀ (f : Fin n → Prog World Bool) (g : Fin n → Prog World (Option (Shown n))),
      (∀ arg, discard (f arg) = g arg >>= printShown aaf) →
      (withArg task fun arg => discard (f arg)) = withArg task g >>= printShown aaf := by
    intro f g h
    rw [withArg_bind]
    simp only [h]
  rw [solveSwitch, switchShown]
  apply ite_eq_bind
  · exact hask _ _ fun arg => solveDspr_eq ω aaf grounded arg
  apply ite_eq_bind
  · simp [solveSeid, printShown]
  apply ite_eq_bind
  · exact (bind_pure_none aaf _).symm
  apply ite_eq_bind
  · exact hask _ _ fun arg => solveDcco_eq ω aaf grounded arg
  apply ite_eq_bind
  · exact solveSest_eq ω aaf grounded
  apply ite_eq_bind
  · exact hask _ _ fun arg => solveDcst_eq ω aaf grounded arg
  apply ite_eq_bind
  · exact hask _ _ fun arg => solveDsst_eq ω aaf grounded arg
  apply ite_eq_bind
  · simp [printWitness, printShown]
  apply ite_eq_bind
  · rw [solveSepr_eq, some_bind]
  apply ite_eq_bind
  · rw [solveSesst, solveSeRange_eq, some_bind]
  apply ite_eq_bind
  · rw [solveSestg, solveSeRange_eq, some_bind]
  apply ite_eq_bind
  · exact hask _ _ fun arg => rangeQuery_eq ω aaf grounded arg (dcsst n)
  apply ite_eq_bind
  · exact hask _ _ fun arg => rangeQuery_eq ω aaf grounded arg (dssst n)
  apply ite_eq_bind
  · exact hask _ _ fun arg => rangeQuery_eq ω aaf grounded arg (dcstg n)
  apply ite_eq_bind
  · exact hask _ _ fun arg => rangeQuery_eq ω aaf grounded arg (dsstg n)
  apply ite_eq_bind
  · exact (bind_pure_none aaf _).symm
  apply ite_eq_bind
  · exact (bind_pure_none aaf _).symm
  apply ite_eq_bind
  · exact (bind_pure_none aaf _).symm
  · rfl

/-- Solving a task prints an answer, if one is asked for, and then the line of what is shown. -/
theorem taasSolve_eq (task : TaskSpecification n) : taasSolve aaf task (solveSwitch ω) =
    taasShown ω aaf task >>= printShown aaf := by
  have hthen : ∀ (p : Prog World Unit) (q : Prog World Unit)
      (q' : Prog World (Option (Shown n))), q = q' >>= printShown aaf →
      (do p; q) = (do p; q') >>= printShown aaf := by
    intro p q q' h
    rw [bind_assoc, h]
  rw [taasSolve, taasShown]
  apply ite_eq_bind
  · simp [printShown]
  apply ite_eq_bind
  · simp [printShown]
  rw [bind_assoc]
  apply bind_congr
  intro dcIn
  apply ite_eq_bind
  · rw [if_printWitness]
    apply hthen
    apply ite_eq_bind
    · simp [printShown]
    · exact solveSwitch_eq ω aaf _ _
  rw [bind_assoc]
  apply bind_congr
  intro dcOut
  apply ite_eq_bind
  · exact (bind_pure_none aaf _).symm
  rw [bind_assoc]
  apply bind_congr
  intro dsIn
  apply ite_eq_bind
  · exact (bind_pure_none aaf _).symm
  rw [bind_assoc]
  apply bind_congr
  intro dsOut
  apply ite_eq_bind
  · rw [if_printWitness]
    exact hthen _ _ _ (solveSwitch_eq ω aaf _ _)
  · exact solveSwitch_eq ω aaf _ _

end Equations

end TaasFudge
