import TaasFudge.Taas.AnySolver
import TaasFudge.Taas.Command
import TaasFudge.Taas.TgfFile

/-! # The program

From the words of the command line and the files that can be opened to the text that is printed.
A command whose words name a problem, a readable file and, for a query, one of its arguments gets
a solution of the problem for the attacks of that file, as long as the arrays and integers of the
program are large enough for them.
-/

namespace TaasFudge

open Cmd

variable {n : ℕ}

/-- The contents of the files that can be opened, byte by byte, by their paths. -/
abbrev Files := List Char → Option (List Char)

def Cmd.Pointer.string? : Pointer → Option (List Char)
  | .string str => some str
  | _ => none

/-- `taas__readFile_tgf`: a name longer than a pointer is written past the end of its buffer, and
more arguments than an `int` can count past the end of their arrays. -/
def readTgf (file : List Char) : Option (Σ n, ReadAaf n) := do
  let r ← readFileTgf file
  if r.1 ≤ intMax ∧ ∀ i, (r.2.aaf.ids2arguments i).toList.length ≤ sizeofPointer then some r
  else none

/-- The reader for the format, which is ICCMA23 unless another one is asked for. -/
def readFormat (format : Pointer) (file : List Char) : Option (Σ n, ReadAaf n) :=
  if format = .string "tgf".toList then readTgf file else readFileI23 file

def readFile (files : Files) (task : Cmd.TaskSpecification) : Option (Σ n, ReadAaf n) := do
  let path ← task.file.string?
  let file ← files path
  readFormat task.format file

def updateArgParam (task : Cmd.TaskSpecification) (aaf : AAF n) : Option (Option (Fin n)) := do
  let problem ← task.problem.string?
  if problem = "DS".toList ∨ problem = "DC".toList then
    let str ← task.argAsString.string?
    let arg ← aaf.arguments2ids (String.ofList (trimwhitespace str).1)
    some (some arg)
  else some none

def readTask (files : Files) (task : Cmd.TaskSpecification) :
    Option (Σ n, AAF n × TaskSpecification n) := do
  let ⟨n, r⟩ ← readFile files task
  let arg ← updateArgParam task r.aaf
  let track ← task.track.string?
  some ⟨n, r.aaf, String.ofList track, arg⟩

def taasSolveCommand (ω : Dimacs.Oracle) (files : Files) (info : SolverInformation) (next : Char)
    (argv : List Word) : Prog World Unit :=
  match cmdHandle info next argv with
  | .null printed => printf (String.ofList printed)
  | .invalid => Prog.undefined
  | .task task =>
    match readTask files task with
    | none => Prog.undefined
    | some ⟨_, aaf, task⟩ => taasSolve aaf task (solveSwitch ω)

def solverInformation : SolverInformation where
  description := ("taas-fudge v3.3.4 (2024-11-29)\nMatthias Thimm " ++
    "(matthias.thimm@fernuni-hagen.de), Federico Cerutti (federico.cerutti@unibs.it), " ++
    "Mauro Vallati (m.vallati@hud.ac.uk)").toList
  formats := "[i23]".toList
  problems := ("[SE-GR,DC-GR,DS-GR,SE-CO,DC-CO,DS-CO,SE-PR,DC-PR,DS-PR,SE-ST,DC-ST,DS-ST," ++
    "SE-ID,DC-ID,DS-ID,DC-SST,DS-SST,SE-SST,DC-STG,DS-STG,SE-STG]").toList

def main (ω : Dimacs.Oracle) (files : Files) (next : Char) (argv : List Word) : Prog World Unit :=
  taasSolveCommand ω files solverInformation next argv

theorem readTgf_refines (mem : TgfMem) {file : List Char} {r : ReadAaf n}
    (h : readTgf file = some ⟨n, r⟩) :
    ∃ st, TgfState.readFile mem file = some st ∧ st.Refines r := by
  obtain ⟨r', hr, h⟩ := Option.bind_eq_some_iff.1 h
  split_ifs at h with hfits
  cases h
  exact TgfState.readFile_refines mem hr hfits.1 hfits.2

def IsQuery (problem : List Char) : Prop := problem = "DS".toList ∨ problem = "DC".toList

instance (problem : List Char) : Decidable (IsQuery problem) :=
  inferInstanceAs (Decidable (_ ∨ _))

theorem Mode.isQuery_track (m : Mode) (σ : Semantics) : IsQuery ((m.track σ).toList.take 2) := by
  cases m <;> cases σ <;> decide

theorem Semantics.not_isQuery_seTrack (σ : Semantics) : ¬ IsQuery (σ.seTrack.toList.take 2) := by
  cases σ <;> decide

theorem CountTrack.not_isQuery_track (κ : CountTrack) : ¬ IsQuery (κ.track.toList.take 2) := by
  cases κ <;> decide

section Command
variable {files : Files} {opts : List (List Char × Pointer)} {task : Cmd.TaskSpecification}

theorem Cmd.Pointer.string?_eq_some {p : Pointer} {str : List Char} :
    p.string? = some str ↔ p = .string str := by
  cases p <;> simp [string?]

theorem information_eq_none_iff (info : SolverInformation) :
    information info opts = none ↔ ∀ o ∈ opts, o.1 ∉ infoNames := by
  rw [information, List.findSome?_eq_none_iff]
  apply forall₂_congr
  intro o _
  rw [infoNames, List.mem_pair, not_or]
  by_cases h : o.1 = "--formats".toList
  · simp only [h, if_true, not_true, false_and, reduceCtorEq]
  · simp only [h, if_false, not_false_eq_true, true_and, ite_eq_right_iff, reduceCtorEq]

theorem updateArgParam_eq {aaf : AAF n} {problem : List Char}
    (h : task.problem = .string problem) : updateArgParam task aaf =
      if IsQuery problem then do
        let str ← task.argAsString.string?
        let arg ← aaf.arguments2ids (String.ofList (trimwhitespace str).1)
        some (some arg)
      else some none := by
  rw [updateArgParam, h]
  rfl

/-- The argument is looked up for a query, and only then. -/
theorem updateArgParam_eq_some_iff {aaf : AAF n} {problem : List Char} {arg : Option (Fin n)}
    (h : task.problem = .string problem) : updateArgParam task aaf = some arg ↔
      if IsQuery problem then ∃ str a, task.argAsString = .string str ∧
        aaf.arguments2ids (String.ofList (trimwhitespace str).1) = some a ∧ arg = some a
      else arg = none := by
  rw [updateArgParam_eq h]
  split_ifs
  · simp only [Option.bind_eq_bind, Option.bind_eq_some_iff, Cmd.Pointer.string?_eq_some,
      Option.some.injEq, exists_and_left, eq_comm (a := arg)]
  · rw [Option.some.injEq, eq_comm]

/-- The task that is read is the one about the file and the argument that are named. -/
theorem readTask_eq_some_iff {track : List Char} {aaf : AAF n} {t : TaskSpecification n}
    (htrack : task.track = .string track) :
    readTask files task = some ⟨n, aaf, t⟩ ↔ ∃ r, readFile files task = some ⟨n, r⟩ ∧
      r.aaf = aaf ∧ t.track = String.ofList track ∧ updateArgParam task aaf = some t.arg := by
  constructor
  · intro h
    obtain ⟨⟨n', r⟩, hr, h⟩ := Option.bind_eq_some_iff.1 h
    obtain ⟨arg, harg, h⟩ := Option.bind_eq_some_iff.1 h
    obtain ⟨str, hstr, h⟩ := Option.bind_eq_some_iff.1 h
    rw [htrack] at hstr
    cases hstr
    cases h
    exact ⟨r, hr, rfl, rfl, harg⟩
  · rintro ⟨r, hr, rfl, ht, harg⟩
    cases t
    subst ht
    rw [readTask, hr]
    simp [harg, htrack, Cmd.Pointer.string?]

theorem readFile_eq_some_iff {r : ReadAaf n} :
    readFile files task = some ⟨n, r⟩ ↔ ∃ path file, task.file = .string path ∧
      files path = some file ∧ readFormat task.format file = some ⟨n, r⟩ := by
  simp only [readFile, Option.bind_eq_bind, Option.bind_eq_some_iff, Cmd.Pointer.string?_eq_some,
    exists_and_left]

/-- With enough options and none that asks for information a track makes a task. -/
theorem handle_eq_task (info : SolverInformation) {track : List Char}
    (hinfo : information info opts = none) (hparam : ¬ counted opts < 2)
    (htrack : finalValue "-p".toList .unset opts = .string track) :
    ∃ task, handle info opts = .task task ∧ task.track = .string track ∧
      task.problem = .string (track.take 2) ∧ task.file = finalValue "-f".toList .unset opts ∧
      task.format = finalValue "-fo".toList .null opts ∧
      task.argAsString = finalValue "-a".toList .unset opts := by
  have hstate : ¬ (stateOf opts).param < 2 := hparam
  have htask : (stateOf opts).task.track = .string track := htrack
  refine ⟨{ (stateOf opts).task with problem := .string (track.take 2), arg := some (-1) }, ?_,
    htrack, rfl, rfl, rfl, rfl⟩
  rw [handle, hinfo]
  dsimp only
  rw [if_neg hstate, htask]

end Command

def Framework.listed {α : Type*} (attacks : List (α × α)) : Framework α :=
  ⟨fun a b => (a, b) ∈ attacks⟩

/-- The options give the track of a problem, the path of a file and, for a query, an argument by
its name, with white space around it or not. -/
structure AsksFor (opts : List (List Char × Pointer)) (p : Problem n) (name : Fin n → List Char)
    (path : List Char) : Prop where
  plain : ∀ o ∈ opts, o.1 ∉ infoNames
  track : finalValue "-p".toList .unset opts = .string p.task.track.toList
  file : finalValue "-f".toList .unset opts = .string path
  arg : ∀ a, p.task.arg = some a → ∃ str,
    finalValue "-a".toList .unset opts = .string str ∧ (trimwhitespace str).1 = name a

section Files
variable {files : Files} {opts : List (List Char × Pointer)} {p : Problem n}
  {name : Fin n → List Char} {path file : List Char} {r : ReadAaf n}

theorem exists_option {key : List Char} {v : Pointer} {start : Pointer}
    (h : finalValue key start opts = v) (hstart : start ≠ v) : ∃ o ∈ opts, o.1 = key := by
  by_contra hnone
  push Not at hnone
  have hnil : valuesOf key opts = [] := by
    rw [valuesOf, List.map_eq_nil_iff, List.filter_eq_nil_iff]
    intro o ho
    rw [decide_eq_true_iff]
    exact hnone o ho
  rw [finalValue, hnil] at h
  exact hstart h

/-- A track and a path are two options that are counted. -/
theorem AsksFor.two_le (h : AsksFor opts p name path) :
    ¬ counted opts < 2 := by
  obtain ⟨o₁, h₁, hp⟩ := exists_option h.track (by simp)
  obtain ⟨o₂, h₂, hf⟩ := exists_option h.file (by simp)
  have hne : o₁ ≠ o₂ := by
    rintro rfl
    exact absurd (hp.symm.trans hf) (by decide)
  have hsub : [o₁, o₂] ⊆ opts.filter (·.1 ∈ countedNames) := by
    intro o ho
    rcases List.mem_pair.1 ho with rfl | rfl
    · exact List.mem_filter.2 ⟨h₁, by rw [hp]; decide⟩
    · exact List.mem_filter.2 ⟨h₂, by rw [hf]; decide⟩
  have hnodup := List.nodup_cons.2 ⟨mt List.mem_singleton.1 hne, List.nodup_singleton _⟩
  have hlength := (List.subperm_of_subset hnodup hsub).length_le
  rw [counted, List.countP_eq_length_filter]
  exact Nat.not_lt.2 hlength

theorem Problem.task_arg (p : Problem n) :
    if IsQuery (p.task.track.toList.take 2) then ∃ a, p.task.arg = some a else p.task.arg = none := by
  cases p with
  | query m σ a =>
    rw [Problem.task, if_pos (m.isQuery_track σ)]
    exact ⟨a, rfl⟩
  | search σ =>
    rw [Problem.task, if_neg σ.not_isQuery_seTrack]
  | count κ =>
    rw [Problem.task, if_neg κ.not_isQuery_track]
  | accepted =>
    have hno : ¬ IsQuery ("EA-PR".toList.take 2) := by decide
    rw [Problem.task, if_neg hno]

/-- The task that is read is the one of the problem. -/
theorem AsksFor.readTask (h : AsksFor opts p name path) (hfile : files path = some file)
    (hread : readFormat (finalValue "-fo".toList .null opts) file = some ⟨n, r⟩)
    (hname : ∀ a, r.aaf.arguments2ids (String.ofList (name a)) = some a) :
    ∃ task, handle solverInformation opts = .task task ∧
      TaasFudge.readTask files task = some ⟨n, r.aaf, p.task⟩ := by
  have hinfo := (information_eq_none_iff solverInformation).2 h.plain
  obtain ⟨task, hhandle, hp, hproblem, hpath, hformat, harg⟩ :=
    handle_eq_task solverInformation hinfo h.two_le h.track
  refine ⟨task, hhandle, (readTask_eq_some_iff hp).2 ⟨r, ?_, rfl, ?_, ?_⟩⟩
  · rw [readFile_eq_some_iff]
    exact ⟨path, file, hpath.trans h.file, hfile, by rwa [hformat]⟩
  · rw [String.ofList_toList]
  · rw [updateArgParam_eq_some_iff hproblem]
    have hquery := p.task_arg
    split_ifs at hquery ⊢
    · obtain ⟨a, ha⟩ := hquery
      obtain ⟨str, hstr, htrim⟩ := h.arg a ha
      exact ⟨str, a, harg.trans hstr, by rw [htrim, hname], ha⟩
    · exact hquery

def i23Aaf (lines : List (I23Line n)) : AAF n :=
  ((ReadAaf.start fun i : Fin n => i23Name i).attackAll (lines.filterMap I23Line.attack?)).aaf

theorem noSpace : ∀ c ∈ ([] : List Char), isspace c = true ∧ c ≠ '\n' := List.forall_mem_nil _

def twoLines : List (I23Line 2) :=
  [.attack ⟨0, Nat.two_pos⟩ ⟨0, Nat.two_pos⟩ ⟨[], noSpace⟩,
    .attack ⟨0, Nat.two_pos⟩ ⟨1, Nat.one_lt_two⟩ ⟨[], noSpace⟩, .skipped (.blank ⟨[], noSpace⟩)]

def twoFiles : Files := fun path =>
  if path = "af".toList then some "p af 2\n1 1\n1 2\n".toList else none

theorem twoFiles_af :
    twoFiles "af".toList = some (i23File [] 2 ⟨[], List.forall_mem_nil _⟩ twoLines) := by decide

def twoCommand : List Word := commandLine ["taas-fudge", "-f", "af", "-p", "SE-PR"]

theorem asksFor_two : AsksFor (options (twoCommand.drop 1)) (.search .pr : Problem 2)
    (fun i => Nat.toDigits 10 (i + 1)) "af".toList where
  plain := by decide
  track := by decide
  file := by decide
  arg _ ha := by cases ha

end Files

section Runs
variable {files : Files}

theorem readTask_two : ∃ task,
    handle solverInformation (options (twoCommand.drop 1)) = .task task ∧
      readTask twoFiles task = some ⟨2, i23Aaf twoLines, ⟨"SE-PR", none⟩⟩ := by
  have hread := readFileI23_i23File (n := 2) (by decide) [] ⟨[], List.forall_mem_nil _⟩ twoLines
  have hnames : (i23Aaf twoLines).ids2arguments = argNumber := funext (readFileI23_names hread)
  refine asksFor_two.readTask twoFiles_af hread fun a => ?_
  have hinjective : Function.Injective (i23Aaf twoLines).ids2arguments := by
    rw [hnames]
    exact argNumber_injective
  rw [← Nat.toString_eq_ofList_toDigits]
  exact (arguments2ids_eq_some hinjective).2 (congrFun hnames a)

end Runs

end TaasFudge
