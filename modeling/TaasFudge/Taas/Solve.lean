import TaasFudge.Argumentation.Semantics
import TaasFudge.Tasks.DsId
import TaasFudge.Tasks.DsPr
import TaasFudge.Tasks.EaPr
import TaasFudge.Tasks.Direct
import TaasFudge.Tasks.RangeCorrectness
import TaasFudge.Tasks.SeRange

/-! # Dispatching a task

`taasSolve` settles what the grounded labelling decides, and hands all other tasks
and the search for witnesses to `solveSwitch`.
-/

namespace TaasFudge

open Dimacs

variable {n : ℕ}

/-- The track, and for DC and DS queries the argument. -/
structure TaskSpecification (n : ℕ) where
  track : String
  arg : Option (Fin n)

section Program
variable (ω : Oracle)

/-- Use `task->arg`, which is no index when no argument was given. -/
def withArg {α : Type} (task : TaskSpecification n) (f : Fin n → Prog World α) : Prog World α :=
  match task.arg with
  | some arg => f arg
  | none => Prog.undefined

/-- The tracks whose function is run for its output only. -/
def solveSwitch (task : TaskSpecification n) (aaf : AAF n) (grounded : Labeling) :
    Prog World Unit :=
  if task.track = "DS-PR" then
    withArg task fun arg => discard (solveDspr ω aaf grounded arg true)
  else if task.track = "SE-ID" then solveSeid ω aaf grounded
  else if task.track = "EA-PR" then solveEapr ω aaf grounded
  else if task.track = "DC-CO" ∨ task.track = "DC-PR" then
    withArg task fun arg => discard (solveDcco ω aaf grounded arg true)
  else if task.track = "SE-ST" then solveSest ω aaf grounded
  else if task.track = "DC-ST" then
    withArg task fun arg => discard (solveDcst ω aaf grounded arg true)
  else if task.track = "DS-ST" then
    withArg task fun arg => discard (solveDsst ω aaf grounded arg true)
  else if task.track = "DS-ID" ∨ task.track = "DC-ID" then
    if printWitness then do
      let ideal ← computeIdeal ω aaf grounded
      withArg task fun arg => printf (answer (ideal.contains arg))
      printf (ideal.printI23 aaf)
    else withArg task fun arg => discard (solveDsid ω aaf grounded arg true)
  else if task.track = "SE-PR" then solveSepr ω aaf grounded none
  else if task.track = "SE-SST" then solveSesst ω aaf grounded
  else if task.track = "SE-STG" then solveSestg ω aaf grounded
  else if task.track = "DC-SST" then
    withArg task fun arg => discard (solveDcsst ω aaf grounded arg true)
  else if task.track = "DS-SST" then
    withArg task fun arg => discard (solveDssst ω aaf grounded arg true)
  else if task.track = "DC-STG" then
    withArg task fun arg => discard (solveDcstg ω aaf grounded arg true)
  else if task.track = "DS-STG" then
    withArg task fun arg => discard (solveDsstg ω aaf grounded arg true)
  else if task.track = "CE-ST" then solveCest ω aaf grounded
  else if task.track = "CE-CO" then solveCeco ω aaf grounded
  else if task.track = "CE-PR" then solveCepr ω aaf grounded
  else pure ()

/-- The track is one of the list and the argument's bit is set; the argument is read only for
these tracks. -/
def argIs (task : TaskSpecification n) (tracks : List String) (bits : BitSet) :
    Prog World Bool :=
  if task.track ∈ tracks then withArg task fun arg => pure (bits.get arg) else pure false

def taasSolve (aaf : AAF n) (task : TaskSpecification n)
    (doSolve : TaskSpecification n → AAF n → Labeling → Prog World Unit) : Prog World Unit := do
  let grounded := (computeGrounded aaf).1
  if task.track = "SE-GR" ∨ task.track = "SE-CO" then
    printf (grounded.printI23 aaf ++ "\n")
  else if task.track = "DC-GR" ∨ task.track = "DS-GR" ∨ task.track = "DS-CO" then
    withArg task fun arg => printf (answer (grounded.labIn.get arg))
    printf (grounded.printI23 aaf ++ "\n")
  else if ← argIs task ["DC-CO", "DC-PR", "DC-SST", "DC-ID"] grounded.labIn then
    printf (answer true)
    if printWitness then
      -- the grounded extension is a complete one; otherwise any extension is a witness
      if task.track = "DC-CO" then printf (grounded.printI23 aaf ++ "\n")
      else
        let track :=
          if task.track = "DC-PR" then "SE-PR"
          else if task.track = "DC-SST" then "SE-SST"
          else if task.track = "DC-ID" then "SE-ID"
          else task.track
        doSolve { task with track := track } aaf grounded
  else if ← argIs task ["DC-CO", "DC-PR", "DC-SST", "DC-ID", "DC-ST"] grounded.labOut then
    printf (answer false)
  else if ← argIs task ["DS-PR", "DS-ST", "DS-SST", "DS-ID"] grounded.labIn then
    printf (answer true)
  else if ← argIs task ["DS-PR", "DS-SST", "DS-ID"] grounded.labOut then
    printf (answer false)
    if printWitness then
      let track :=
        if task.track = "DS-PR" then "SE-PR"
        else if task.track = "DS-SST" then "SE-SST"
        else if task.track = "DS-ID" then "SE-ID"
        else task.track
      doSolve { task with track := track } aaf grounded
  else doSolve task aaf grounded

end Program

def Mode.track : Mode → Semantics → String
  | .dc, .co => "DC-CO"
  | .dc, .gr => "DC-GR"
  | .dc, .pr => "DC-PR"
  | .dc, .st => "DC-ST"
  | .dc, .sst => "DC-SST"
  | .dc, .id => "DC-ID"
  | .dc, .stg => "DC-STG"
  | .ds, .co => "DS-CO"
  | .ds, .gr => "DS-GR"
  | .ds, .pr => "DS-PR"
  | .ds, .st => "DS-ST"
  | .ds, .sst => "DS-SST"
  | .ds, .id => "DS-ID"
  | .ds, .stg => "DS-STG"

def Semantics.seTrack : Semantics → String
  | .co => "SE-CO"
  | .gr => "SE-GR"
  | .pr => "SE-PR"
  | .st => "SE-ST"
  | .sst => "SE-SST"
  | .id => "SE-ID"
  | .stg => "SE-STG"

def Settled {α : Type*} (F : Framework α) (a : α) : Mode → Semantics → Prop
  | _, .gr => True
  | .ds, .co => True
  | .dc, .co | _, .pr | _, .sst | _, .id => a ∈ F.grounded ∨ a ∈ F.attackedBy F.grounded
  | .dc, .st => a ∈ F.attackedBy F.grounded
  | .ds, .st => a ∈ F.grounded
  | _, .stg => False

/-- Runs that print the answer `r` and then nothing, an extension that agrees with `r`, or what
solving for some extension prints, where all extensions agree with `r`. -/
inductive Shortcut (aaf : AAF n) (σ : Semantics) (a : Fin n) (r : Bool) (search : Prog World Unit) :
    Prog World Unit → Prop
  | bare : Shortcut aaf σ a r search (printf (answer r))
  | grounded {line : String}
      (h : GivesWitness aaf (fun E => σ.Extension aaf.framework E ∧ (r = true ↔ a ∈ E)) line) :
      Shortcut aaf σ a r search (do printf (answer r); printf line)
  | redirected (h : ∀ E, σ.Extension aaf.framework E → (r = true ↔ a ∈ E)) :
      Shortcut aaf σ a r search (do printf (answer r); search)

section Shortcuts
variable {aaf : AAF n} {a : Fin n} {m : Mode} {σ : Semantics}
  {doSolve : TaskSpecification n → AAF n → Labeling → Prog World Unit}

theorem argIs_some (track : String) (tracks : List String) (bits : BitSet) :
    argIs ⟨track, some a⟩ tracks bits = pure (decide (track ∈ tracks) && bits.get a) := by
  rw [argIs]
  split_ifs with h
  · simp [withArg, h]
  · simp [h]

theorem grounded_givesWitness (aaf : AAF n) {P : Set (Fin n) → Prop} (h : P aaf.framework.grounded) :
    GivesWitness aaf P ((computeGrounded aaf).1.printI23 aaf ++ "\n") := by
  refine ⟨_, h, (computeGrounded_represents aaf).printI23_witness aaf fun i hi ho => ?_⟩
  exact Framework.grounded_complete.admissible.conflictFree.notMem_of_grounded_attacks
    subset_rfl ho hi

/-- A query that is not settled goes to the solver as it is. -/
theorem taasSolve_of_not_settled (h : ¬ Settled aaf.framework a m σ) :
    taasSolve aaf ⟨m.track σ, some a⟩ doSolve =
      doSolve ⟨m.track σ, some a⟩ aaf (computeGrounded aaf).1 := by
  have hrep := computeGrounded_represents aaf
  have hin := hrep.in_iff a
  have hout := hrep.out_iff a
  cases m <;> cases σ <;>
    simp_all [taasSolve, argIs_some, Mode.track, Settled]

theorem taasSolve_grounded (hσ : σ = .gr ∨ (m = .ds ∧ σ = .co)) :
    taasSolve aaf ⟨m.track σ, some a⟩ doSolve = (do
      printf (answer ((computeGrounded aaf).1.labIn.get a))
      printf ((computeGrounded aaf).1.printI23 aaf ++ "\n")) := by
  rcases hσ with rfl | ⟨rfl, rfl⟩
  · cases m <;> simp [taasSolve, Mode.track, withArg]
  · simp [taasSolve, Mode.track, withArg]

theorem taasSolve_dcco_in (hin : (computeGrounded aaf).1.labIn.get a = true) :
    taasSolve aaf ⟨Mode.dc.track .co, some a⟩ doSolve = (do
      printf (answer true)
      printf ((computeGrounded aaf).1.printI23 aaf ++ "\n")) := by
  simp [taasSolve, argIs_some, Mode.track, hin, printWitness]

theorem taasSolve_dc_in (hin : (computeGrounded aaf).1.labIn.get a = true)
    (hσ : σ = .pr ∨ σ = .sst ∨ σ = .id) :
    taasSolve aaf ⟨Mode.dc.track σ, some a⟩ doSolve = (do
      printf (answer true)
      doSolve ⟨σ.seTrack, some a⟩ aaf (computeGrounded aaf).1) := by
  rcases hσ with rfl | rfl | rfl <;>
    simp [taasSolve, argIs_some, Mode.track, Semantics.seTrack, hin, printWitness]

theorem taasSolve_dc_out (hin : (computeGrounded aaf).1.labIn.get a = false)
    (hout : (computeGrounded aaf).1.labOut.get a = true) (hgr : σ ≠ .gr) (hstg : σ ≠ .stg) :
    taasSolve aaf ⟨Mode.dc.track σ, some a⟩ doSolve = printf (answer false) := by
  cases σ <;> simp_all [taasSolve, argIs_some, Mode.track]

theorem taasSolve_ds_in (hin : (computeGrounded aaf).1.labIn.get a = true) (hgr : σ ≠ .gr)
    (hco : σ ≠ .co) (hstg : σ ≠ .stg) :
    taasSolve aaf ⟨Mode.ds.track σ, some a⟩ doSolve = printf (answer true) := by
  cases σ <;> simp_all [taasSolve, argIs_some, Mode.track]

theorem taasSolve_ds_out (hin : (computeGrounded aaf).1.labIn.get a = false)
    (hout : (computeGrounded aaf).1.labOut.get a = true) (hσ : σ = .pr ∨ σ = .sst ∨ σ = .id) :
    taasSolve aaf ⟨Mode.ds.track σ, some a⟩ doSolve = (do
      printf (answer false)
      doSolve ⟨σ.seTrack, some a⟩ aaf (computeGrounded aaf).1) := by
  rcases hσ with rfl | rfl | rfl <;>
    simp [taasSolve, argIs_some, Mode.track, Semantics.seTrack, hin, hout, printWitness]

theorem taasSolve_se {task : TaskSpecification n}
    (h : task.track = "SE-GR" ∨ task.track = "SE-CO") :
    taasSolve aaf task doSolve = printf ((computeGrounded aaf).1.printI23 aaf ++ "\n") := by
  rw [taasSolve, if_pos h]

theorem taasSolve_other {task : TaskSpecification n} (hgr : task.track ≠ "SE-GR")
    (hco : task.track ≠ "SE-CO") (hquery : ∀ m σ, task.track ≠ Mode.track m σ) :
    taasSolve aaf task doSolve = doSolve task aaf (computeGrounded aaf).1 := by
  have hdc := fun σ => hquery .dc σ
  have hds := fun σ => hquery .ds σ
  simp only [Mode.track] at hdc hds
  have hno : ∀ tracks bits, task.track ∉ tracks → argIs task tracks bits = pure false :=
    fun tracks bits h => if_neg h
  have := hdc .co; have := hdc .gr; have := hdc .pr; have := hdc .st
  have := hdc .sst; have := hdc .id
  have := hds .co; have := hds .gr; have := hds .pr; have := hds .st
  have := hds .sst; have := hds .id
  simp_all [taasSolve]

/-- An argument that the grounded labeling has IN: the answer is yes. -/
theorem shortcut_of_in (hgr : σ ≠ .gr) (hco : m = .ds → σ ≠ .co) (hst : m = .dc → σ ≠ .st)
    (hstg : σ ≠ .stg) (ha : a ∈ aaf.framework.grounded) :
    Shortcut aaf σ a true (doSolve ⟨σ.seTrack, some a⟩ aaf (computeGrounded aaf).1)
      (taasSolve aaf ⟨m.track σ, some a⟩ doSolve) := by
  have hin := ((computeGrounded_represents aaf).in_iff a).2 ha
  cases m with
  | ds =>
    rw [taasSolve_ds_in hin hgr (hco rfl) hstg]
    exact .bare
  | dc =>
    by_cases hσ : σ = .co
    · subst hσ
      rw [taasSolve_dcco_in hin]
      exact .grounded (grounded_givesWitness aaf
        ⟨Framework.grounded_complete, iff_of_true rfl ha⟩)
    · rw [taasSolve_dc_in hin (by have := hst rfl; cases σ <;> simp_all)]
      exact .redirected fun E hE => iff_of_true rfl (Semantics.mem_of_grounded hstg ha hE)

/-- An argument that the grounded labeling has OUT: the answer is no. -/
theorem shortcut_of_out (hgr : σ ≠ .gr) (hco : m = .ds → σ ≠ .co) (hst : m = .ds → σ ≠ .st)
    (hstg : σ ≠ .stg) (ha : a ∈ aaf.framework.attackedBy aaf.framework.grounded) :
    Shortcut aaf σ a false (doSolve ⟨σ.seTrack, some a⟩ aaf (computeGrounded aaf).1)
      (taasSolve aaf ⟨m.track σ, some a⟩ doSolve) := by
  have hrep := computeGrounded_represents aaf
  have hno : ∀ σ : Semantics, σ ≠ .stg → ∀ E, σ.Extension aaf.framework E → a ∉ E :=
    fun σ hσ E hE => Semantics.notMem_of_grounded_attacks hσ ha hE
  have hin : (computeGrounded aaf).1.labIn.get a = false := by
    rw [Bool.eq_false_iff, Ne, hrep.in_iff]
    exact hno .gr (by simp) _ rfl
  have hout := (hrep.out_iff a).2 ha
  cases m with
  | dc =>
    rw [taasSolve_dc_out hin hout hgr hstg]
    exact .bare
  | ds =>
    rw [taasSolve_ds_out hin hout
      (by have := hco rfl; have := hst rfl; cases σ <;> simp_all)]
    exact .redirected fun E hE => iff_of_false (by simp) (hno σ hstg E hE)

/-- What the grounded labeling settles is answered as the semantics demands and followed by
nothing that contradicts the answer; all other tasks are handed over unchanged. -/
theorem taasSolve_shortcuts (aaf : AAF n)
    (doSolve : TaskSpecification n → AAF n → Labeling → Prog World Unit) :
    (∀ track arg, track = "SE-GR" ∨ track = "SE-CO" →
      ∃ line, taasSolve aaf ⟨track, arg⟩ doSolve = printf line ∧
        GivesWitness aaf (IsLeast {E | aaf.framework.Complete E}) line) ∧
    (∀ m σ a,
      (Settled aaf.framework a m σ → ∃ r, (r = true ↔ m.Accepts aaf.framework σ a) ∧
        Shortcut aaf σ a r (doSolve ⟨σ.seTrack, some a⟩ aaf (computeGrounded aaf).1)
          (taasSolve aaf ⟨m.track σ, some a⟩ doSolve)) ∧
      (¬ Settled aaf.framework a m σ → taasSolve aaf ⟨m.track σ, some a⟩ doSolve =
        doSolve ⟨m.track σ, some a⟩ aaf (computeGrounded aaf).1)) ∧
    ∀ track arg, track ≠ "SE-GR" → track ≠ "SE-CO" → (∀ m σ, track ≠ Mode.track m σ) →
      taasSolve aaf ⟨track, arg⟩ doSolve =
        doSolve ⟨track, arg⟩ aaf (computeGrounded aaf).1 := by
  refine ⟨fun track arg h => ⟨_, taasSolve_se h,
      grounded_givesWitness aaf Framework.grounded_isLeast_complete⟩,
    fun m σ a => ⟨fun h => ?_, taasSolve_of_not_settled⟩,
    fun track arg hgr hco hquery => taasSolve_other hgr hco hquery⟩
  by_cases hgr : σ = .gr ∨ (m = .ds ∧ σ = .co)
  · have hin := (computeGrounded_represents aaf).in_iff a
    rw [taasSolve_grounded hgr]
    rcases hgr with rfl | ⟨rfl, rfl⟩
    · exact ⟨_, hin.trans Mode.accepts_gr_iff.symm,
        .grounded (grounded_givesWitness aaf ⟨rfl, hin⟩)⟩
    · exact ⟨_, hin.trans Mode.ds_accepts_co_iff.symm,
        .grounded (grounded_givesWitness aaf ⟨Framework.grounded_complete, hin⟩)⟩
  obtain ⟨hgr, hco⟩ := not_or.1 hgr
  have hco : m = .ds → σ ≠ .co := fun hm hσ => hco ⟨hm, hσ⟩
  have hstg : σ ≠ .stg := by
    rintro rfl
    exact h
  by_cases ha : a ∈ aaf.framework.grounded
  · have hst : m = .dc → σ ≠ .st := by
      rintro rfl rfl
      exact Semantics.notMem_of_grounded_attacks (σ := .gr) (by simp) h rfl ha
    exact ⟨true, iff_of_true rfl (Mode.accepts_of_grounded hstg ha hst),
      shortcut_of_in hgr hco hst hstg ha⟩
  · have hst : m = .ds → σ ≠ .st := by
      rintro rfl rfl
      exact ha h
    have hout : a ∈ aaf.framework.attackedBy aaf.framework.grounded := by
      cases m <;> cases σ <;> simp_all [Settled]
    exact ⟨false, iff_of_false (by simp) (Mode.not_accepts_of_grounded_attacks hstg hout hst),
      shortcut_of_out hgr hco hst hstg hout⟩

end Shortcuts

/-- The output of DS-ID and DC-ID: the answer for `a`, then the ideal extension. -/
def IdealAnswer (aaf : AAF n) (a : Fin n) (w w' : World) : Prop :=
  ∃ r line, GivesWitness aaf (fun E => aaf.framework.Ideal E ∧ (r = true ↔ a ∈ E)) line ∧
    w'.stdout = w.stdout ++ (answer r ++ line)

section IdealTracks
variable {aaf : AAF n} {a : Fin n} {m : Mode}

theorem WitnessLine.two_le_length {E : Set (Fin n)} {line : String} (h : WitnessLine aaf E line) :
    2 ≤ line.length := by
  cases h with
  | separated l _ =>
    simp only [String.length_append, show "w ".length = 2 from rfl]
    omega
  | terminated l _ =>
    have hfold : ∀ (l : List (Fin n)) (acc : String),
        acc.length ≤ (l.foldl (fun acc i => acc ++ (aaf.ids2arguments i ++ " ")) acc).length := by
      intro l
      induction l with
      | nil => exact fun _ => le_rfl
      | cons i l ih =>
        intro acc
        refine le_trans ?_ (ih _)
        rw [String.length_append]
        omega
    rw [String.length_append]
    exact le_trans (hfold l "w ") (Nat.le_add_right _ _)

/-- An answer without a line after it does not meet the contract. -/
theorem not_total_bare_answer (r : Bool) (w : World) :
    ¬ Prog.Total (printf (answer r)) (fun _ => IdealAnswer aaf a w) w := by
  rw [printf, Prog.total_atomic]
  rintro ⟨r', line, ⟨E, -, hline⟩, hw'⟩
  have hlen := congrArg String.length hw'
  have := hline.two_le_length
  have hanswer : ∀ b, 3 ≤ (answer b).length ∧ (answer b).length ≤ 4 := by decide
  have := hanswer r
  have := hanswer r'
  simp only [String.length_append] at hlen
  omega

theorem total_seid (ω : TotalOracle) (aaf : AAF n) (w : World) :
    Prog.Total (solveSeid ω.answer aaf (computeGrounded aaf).1) (fun _ w' =>
      ∃ line, GivesWitness aaf aaf.framework.Ideal line ∧ w'.stdout = w.stdout ++ line) w := by
  rw [solveSeid]
  refine Prog.Total.bind
    ((total_computeIdeal ω (computeGrounded_represents aaf) w).mono fun ideal w' h => ?_)
  rw [printf, Prog.total_atomic]
  refine ⟨_, ⟨_, h.1, ideal.printI23_witness aaf rfl⟩, ?_⟩
  dsimp only
  rw [h.2]

/-- The answer `r` followed by SE-ID meets the contract when all ideal extensions agree with it. -/
theorem total_answer_seid (ω : TotalOracle) {r : Bool}
    (h : ∀ E, aaf.framework.Ideal E → (r = true ↔ a ∈ E)) (w : World) :
    Prog.Total (do
      printf (answer r)
      solveSwitch ω.answer ⟨"SE-ID", some a⟩ aaf (computeGrounded aaf).1)
      (fun _ => IdealAnswer aaf a w) w := by
  rw [show solveSwitch ω.answer ⟨"SE-ID", some a⟩ aaf (computeGrounded aaf).1 =
    solveSeid ω.answer aaf (computeGrounded aaf).1 by simp [solveSwitch]]
  refine Prog.total_atomic_bind.2 ((total_seid ω aaf _).mono ?_)
  rintro _ w' ⟨line, ⟨E, hE, hline⟩, hw'⟩
  exact ⟨r, line, ⟨E, ⟨hE, h E hE⟩, hline⟩, by rw [hw', String.append_assoc]⟩

theorem total_switch_id (ω : TotalOracle) (aaf : AAF n) (a : Fin n) (m : Mode) (w : World) :
    Prog.Total (solveSwitch ω.answer ⟨m.track .id, some a⟩ aaf (computeGrounded aaf).1)
      (fun _ => IdealAnswer aaf a w) w := by
  have hrun : solveSwitch ω.answer ⟨m.track .id, some a⟩ aaf (computeGrounded aaf).1 = (do
      let ideal ← computeIdeal ω.answer aaf (computeGrounded aaf).1
      printf (answer (ideal.contains a))
      printf (ideal.printI23 aaf)) := by
    cases m <;> simp [solveSwitch, Mode.track, printWitness, withArg]
  rw [hrun]
  refine Prog.Total.bind
    ((total_computeIdeal ω (computeGrounded_represents aaf) w).mono fun ideal w' h => ?_)
  rw [printf, Prog.total_atomic_bind, printf, Prog.total_atomic]
  refine ⟨_, _, ⟨_, ⟨h.1, ideal.contains_iff⟩, ideal.printI23_witness aaf rfl⟩, ?_⟩
  dsimp only
  rw [h.2, String.append_assoc]

/-- The ideal extension follows the answer except where a sceptical yes or a credulous no is
read off the grounded labeling. -/
theorem taasSolve_idealAnswer_iff (ω : TotalOracle) (aaf : AAF n) (a : Fin n) (m : Mode)
    (w : World) :
    Prog.Total (taasSolve aaf ⟨m.track .id, some a⟩ (solveSwitch ω.answer))
        (fun _ => IdealAnswer aaf a w) w ↔
      ¬ (m = .ds ∧ a ∈ aaf.framework.grounded) ∧
        ¬ (m = .dc ∧ a ∈ aaf.framework.attackedBy aaf.framework.grounded) := by
  have hrep := computeGrounded_represents aaf
  have hyes : a ∈ aaf.framework.grounded → ∀ E, aaf.framework.Ideal E → (true = true ↔ a ∈ E) :=
    fun ha E hE => iff_of_true rfl (hE.grounded_subset ha)
  have hno : a ∈ aaf.framework.attackedBy aaf.framework.grounded →
      ∀ E, aaf.framework.Ideal E → (false = true ↔ a ∈ E) := fun ha E hE =>
    iff_of_false (by simp) (Semantics.notMem_of_grounded_attacks (σ := .id) (by simp) ha hE)
  by_cases ha : a ∈ aaf.framework.grounded
  · have hin := (hrep.in_iff a).2 ha
    have hnot : a ∉ aaf.framework.attackedBy aaf.framework.grounded := fun ho =>
      Semantics.notMem_of_grounded_attacks (σ := .gr) (by simp) ho rfl ha
    cases m with
    | dc =>
      rw [taasSolve_dc_in hin (by simp)]
      exact iff_of_true (total_answer_seid ω (hyes ha) w) (by simp [hnot])
    | ds =>
      rw [taasSolve_ds_in hin (by simp) (by simp) (by simp)]
      exact iff_of_false (not_total_bare_answer true w) (by simp [ha])
  have hin : (computeGrounded aaf).1.labIn.get a = false := by
    rwa [Bool.eq_false_iff, Ne, hrep.in_iff]
  by_cases ho : a ∈ aaf.framework.attackedBy aaf.framework.grounded
  · have hout := (hrep.out_iff a).2 ho
    cases m with
    | dc =>
      rw [taasSolve_dc_out hin hout (by simp) (by simp)]
      exact iff_of_false (not_total_bare_answer false w) (by simp [ho])
    | ds =>
      rw [taasSolve_ds_out hin hout (by simp)]
      exact iff_of_true (total_answer_seid ω (hno ho) w) (by simp [ha])
  · have hnot : ¬ Settled aaf.framework a m .id := by
      cases m <;> simp [Settled, ha, ho]
    rw [taasSolve_of_not_settled hnot]
    exact iff_of_true (total_switch_id ω aaf a m w) (by simp [ha, ho])

def singleArgument : AAF 1 := AAF.withoutAttacks fun _ => "1"

/-- For a single unattacked argument DS-ID prints "YES" and no extension. -/
theorem dsid_singleArgument :
    ¬ ∀ (ω : TotalOracle) (w : World),
      Prog.Total (taasSolve singleArgument ⟨"DS-ID", some 0⟩ (solveSwitch ω.answer))
        (fun _ => IdealAnswer singleArgument 0 w) w := by
  intro h
  have ha : 0 ∈ singleArgument.framework.grounded :=
    Framework.mem_grounded.2 fun i hi => absurd hi List.not_mem_nil
  have hin := ((computeGrounded_represents singleArgument).in_iff 0).2 ha
  have hrun := h default ⟨0, "", true⟩
  rw [show "DS-ID" = Mode.ds.track .id from rfl,
    taasSolve_ds_in hin (by simp) (by simp) (by simp)] at hrun
  exact not_total_bare_answer true _ hrun

end IdealTracks

end TaasFudge
