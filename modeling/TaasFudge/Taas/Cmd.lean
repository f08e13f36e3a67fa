import Mathlib.Data.Int.Notation
import Mathlib.Data.List.Nodup
import Mathlib.Data.List.Perm.Subperm
import Mathlib.Tactic.Common

/-! # The command line

Reading the words of the command line into a task. Memory that `malloc` returns is unset: a task
has fields that point nowhere until an option sets them, and `argv[argc]` is the null pointer. What
is read through such a field has no result.
-/

namespace TaasFudge.Cmd

/-- A word of the command line, without its NUL. -/
abbrev Word := {word : List Char // Char.ofNat 0 ∉ word}

inductive Pointer where
  | unset
  | null
  | string (str : List Char)
  deriving DecidableEq

structure SolverInformation where
  description : List Char
  formats : List Char
  problems : List Char

structure TaskSpecification where
  track : Pointer
  problem : Pointer
  file : Pointer
  format : Pointer
  arg : Option ℤ
  argAsString : Pointer
  numberOfAdditionalArguments : ℕ
  additionalKeys : List Pointer
  additionalValues : List Pointer
  deriving DecidableEq

def TaskSpecification.malloc : TaskSpecification where
  track := .unset
  problem := .unset
  file := .unset
  format := .null
  arg := none
  argAsString := .unset
  numberOfAdditionalArguments := 0
  additionalKeys := []
  additionalValues := []

structure CmdState where
  task : TaskSpecification
  param : ℕ

/-- One round of the loop: `word` is `argv[i]` and `value` is `argv[i+1]`. What is printed before
`NULL` is returned is the error. -/
def cmdRound (info : SolverInformation) (word : List Char) (value : Pointer) (st : CmdState) :
    Except (List Char) CmdState :=
  if word = "-p".toList then
    .ok { task := { st.task with track := value }, param := st.param + 1 }
  else if word = "-f".toList then
    .ok { task := { st.task with file := value }, param := st.param + 1 }
  else if word = "-a".toList then
    .ok { st with task := { st.task with argAsString := value } }
  else if word = "-fo".toList then
    .ok { task := { st.task with format := value }, param := st.param + 1 }
  else if word = "--formats".toList then .error (info.formats ++ ['\n'])
  else if word = "--problems".toList then .error (info.problems ++ ['\n'])
  else
    .ok { st with task := { st.task with
      numberOfAdditionalArguments := st.task.numberOfAdditionalArguments + 1
      additionalKeys := st.task.additionalKeys ++ [.string word]
      additionalValues := st.task.additionalValues ++ [value] } }

/-- The loop: each round takes two words, and the null pointer after the last one. -/
def cmdLoop (info : SolverInformation) : List Word → CmdState → Except (List Char) CmdState
  | [], st => .ok st
  | [word], st => cmdRound info word .null st
  | word :: value :: words, st => do
    let st ← cmdRound info word (.string value) st
    cmdLoop info words st

inductive Handled where
  | null (printed : List Char)
  | task (task : TaskSpecification)
  /-- A field is dereferenced that is unset or null. -/
  | invalid

/-- The string in `problem` after `memcpy` of two characters from a word that is followed by its
NUL and, in memory, by `next`. -/
def copyProblem (track : List Char) (next : Char) : List Char :=
  ((track ++ [Char.ofNat 0, next]).take 2).takeWhile (· ≠ Char.ofNat 0)

def cmdHandle (info : SolverInformation) (next : Char) (argv : List Word) : Handled :=
  match cmdLoop info (argv.drop 1) { task := .malloc, param := 0 } with
  | .error printed => .null printed
  | .ok { task, param } =>
    if param < 2 then .null (info.description ++ ['\n'])
    else match task.track with
      | .string track =>
        .task { task with problem := .string (copyProblem track next), arg := some (-1) }
      | _ => .invalid

/-- The words in the place of an option, each with the word that follows it. -/
def pairs : List Word → List (Word × Word)
  | word :: value :: words => (word, value) :: pairs words
  | _ => []

/-- The word in the place of an option that no word follows. -/
def trailing : List Word → Option Word
  | [] => none
  | [word] => some word
  | _ :: _ :: words => trailing words

/-- All words in the place of an option, with their pointers. -/
def options (words : List Word) : List (List Char × Pointer) :=
  (pairs words).map (fun p => (p.1.val, .string p.2)) ++
    (trailing words).toList.map fun word => (word.val, .null)

theorem cmdLoop_eq (info : SolverInformation) (words : List Word) (st : CmdState) :
    cmdLoop info words st =
      (options words).foldlM (fun st o => cmdRound info o.1 o.2 st) st := by
  fun_induction cmdLoop info words st with
  | case1 st => rfl
  | case2 word st => simp [options, pairs, trailing]
  | case3 word value words st ih =>
    simp only [options, pairs, trailing, List.map_cons, List.cons_append, List.foldlM_cons] at ih ⊢
    congr 1
    funext st
    exact ih st

def valuesOf (name : List Char) (opts : List (List Char × Pointer)) : List Pointer :=
  (opts.filter (·.1 = name)).map Prod.snd

def infoNames : List (List Char) := ["--formats".toList, "--problems".toList]

def countedNames : List (List Char) := ["-p".toList, "-f".toList, "-fo".toList]

def taskNames : List (List Char) := ["-p".toList, "-f".toList, "-a".toList, "-fo".toList]

def additional (opts : List (List Char × Pointer)) : List (List Char × Pointer) :=
  opts.filter (·.1 ∉ taskNames)

def counted (opts : List (List Char × Pointer)) : ℕ := opts.countP (·.1 ∈ countedNames)

structure Read (opts : List (List Char × Pointer)) (st : CmdState) : Prop where
  track_eq : st.task.track = (valuesOf "-p".toList opts).getLast?.getD .unset
  file_eq : st.task.file = (valuesOf "-f".toList opts).getLast?.getD .unset
  param_eq : st.param = opts.countP (·.1 ∈ countedNames)
  number_eq : st.task.numberOfAdditionalArguments = (additional opts).length
  keys_eq : st.task.additionalKeys = (additional opts).map fun o => .string o.1
  values_eq : st.task.additionalValues = (additional opts).map Prod.snd

section Loop
variable {opts : List (List Char × Pointer)} {st : CmdState}

theorem read_malloc : Read [] { task := .malloc, param := 0 } := by
  constructor <;> rfl

theorem valuesOf_append (name : List Char) (o : List Char × Pointer) :
    valuesOf name (opts ++ [o]) = valuesOf name opts ++ if o.1 = name then [o.2] else [] := by
  by_cases h : o.1 = name <;> simp [valuesOf, h]

theorem additional_append (o : List Char × Pointer) :
    additional (opts ++ [o]) = additional opts ++ if o.1 ∉ taskNames then [o] else [] := by
  by_cases h : o.1 ∈ taskNames <;> simp [additional, h]

/-- A round that asks for information is the last one. -/
theorem cmdRound_info (info : SolverInformation) (st : CmdState) {o : List Char × Pointer}
    (h : o.1 ∈ infoNames) :
    ∃ printed, cmdRound info o.1 o.2 st = .error printed := by
  rw [infoNames, List.mem_pair] at h
  cases h with
  | inl h =>
    rw [h]
    exact ⟨_, rfl⟩
  | inr h =>
    rw [h]
    exact ⟨_, rfl⟩

structure Enters (st : CmdState) (o : List Char × Pointer) (st' : CmdState) : Prop where
  track_eq : st'.task.track = if o.1 = "-p".toList then o.2 else st.task.track
  file_eq : st'.task.file = if o.1 = "-f".toList then o.2 else st.task.file
  param_eq : st'.param = st.param + if o.1 ∈ countedNames then 1 else 0
  number_eq : st'.task.numberOfAdditionalArguments =
    st.task.numberOfAdditionalArguments + if o.1 ∉ taskNames then 1 else 0
  keys_eq : st'.task.additionalKeys =
    st.task.additionalKeys ++ if o.1 ∉ taskNames then [.string o.1] else []
  values_eq : st'.task.additionalValues =
    st.task.additionalValues ++ if o.1 ∉ taskNames then [o.2] else []

theorem ne_of_notMem_taskNames {name : List Char} (h : name ∉ taskNames) :
    name ≠ "-p".toList ∧ name ≠ "-f".toList ∧ name ≠ "-a".toList ∧ name ≠ "-fo".toList ∧
      name ∉ countedNames := by
  simp only [taskNames, List.mem_cons, List.not_mem_nil, or_false, not_or] at h
  obtain ⟨hp, hf, ha, hfo⟩ := h
  refine ⟨hp, hf, ha, hfo, ?_⟩
  simp only [countedNames, List.mem_cons, List.not_mem_nil, or_false, not_or]
  exact ⟨hp, hf, hfo⟩

theorem cmdRound_enters (info : SolverInformation) (st : CmdState) {o : List Char × Pointer}
    (h : o.1 ∉ infoNames) :
    ∃ st', cmdRound info o.1 o.2 st = .ok st' ∧ Enters st o st' := by
  obtain ⟨name, value⟩ := o
  rw [infoNames, List.mem_pair, not_or] at h
  dsimp only at h ⊢
  rw [cmdRound, if_neg h.1, if_neg h.2]
  by_cases htask : name ∈ taskNames
  · rw [taskNames, List.mem_cons, List.mem_cons, List.mem_pair] at htask
    -- one of the four options of the task
    rcases htask with rfl | rfl | rfl | rfl
    all_goals
      refine ⟨_, rfl, ?_⟩
      constructor
      · rfl
      · rfl
      · rfl
      · rfl
      · exact (List.append_nil _).symm
      · exact (List.append_nil _).symm
  · obtain ⟨hp, hf, ha, hfo, hcounted⟩ := ne_of_notMem_taskNames htask
    rw [if_neg hp, if_neg hf, if_neg ha, if_neg hfo]
    refine ⟨_, rfl, ?_⟩
    constructor
    · exact (if_neg hp).symm
    · exact (if_neg hf).symm
    · rw [if_neg hcounted]
      rfl
    · rw [if_pos htask]
    · rw [if_pos htask]
    · rw [if_pos htask]

theorem getLast_valuesOf_append (name : List Char) (o : List Char × Pointer) (start : Pointer) :
    (valuesOf name (opts ++ [o])).getLast?.getD start =
      if o.1 = name then o.2 else (valuesOf name opts).getLast?.getD start := by
  rw [valuesOf_append]
  by_cases h : o.1 = name <;> simp [h]

theorem Read.enters (h : Read opts st) {o : List Char × Pointer} {st' : CmdState}
    (he : Enters st o st') : Read (opts ++ [o]) st' := by
  constructor
  · rw [he.track_eq, getLast_valuesOf_append, h.track_eq]
  · rw [he.file_eq, getLast_valuesOf_append, h.file_eq]
  · rw [he.param_eq, h.param_eq, List.countP_append, List.countP_singleton]
    simp only [decide_eq_true_eq]
  · rw [he.number_eq, h.number_eq, additional_append, List.length_append]
    split_ifs <;> rfl
  · rw [he.keys_eq, h.keys_eq, additional_append, List.map_append]
    split_ifs <;> rfl
  · rw [he.values_eq, h.values_eq, additional_append, List.map_append]
    split_ifs <;> rfl

/-- Without an option that asks for information all options are entered. -/
theorem Read.run (h : Read opts st) (info : SolverInformation) {l : List (List Char × Pointer)}
    (hl : ∀ o ∈ l, o.1 ∉ infoNames) :
    ∃ st', l.foldlM (fun st o => cmdRound info o.1 o.2 st) st = .ok st' ∧ Read (opts ++ l) st' := by
  induction l generalizing opts st with
  | nil => exact ⟨st, rfl, by rwa [List.append_nil]⟩
  | cons o l ih =>
    rw [List.forall_mem_cons] at hl
    obtain ⟨st₁, hround, he⟩ := cmdRound_enters info st hl.1
    obtain ⟨st', hrun, h'⟩ := ih (h.enters he) hl.2
    refine ⟨st', ?_, by rwa [List.append_assoc] at h'⟩
    rw [List.foldlM_cons, hround]
    exact hrun

theorem run_info (info : SolverInformation) (st : CmdState) {l : List (List Char × Pointer)}
    (hl : ∃ o ∈ l, o.1 ∈ infoNames) :
    ∃ printed, l.foldlM (fun st o => cmdRound info o.1 o.2 st) st = .error printed := by
  induction l generalizing st with
  | nil =>
    obtain ⟨o, ho, -⟩ := hl
    cases ho
  | cons o l ih =>
    rw [List.foldlM_cons]
    by_cases ho : o.1 ∈ infoNames
    · obtain ⟨printed, hround⟩ := cmdRound_info info st ho
      exact ⟨printed, by rw [hround]; rfl⟩
    · obtain ⟨st₁, hround, -⟩ := cmdRound_enters info st ho
      rw [hround]
      exact ih _ ((List.exists_mem_cons_iff _ _ _).1 hl |>.resolve_left ho)

end Loop

/-- The value of the last option of a name that has one. -/
def lastValue (name : List Char) (words : List Word) : Option Word :=
  (((pairs words).filter (·.1.val = name)).map Prod.snd).getLast?

/-- The options with a value that are not options of the task. -/
def others (words : List Word) : List (Word × Word) := (pairs words).filter (·.1.val ∉ taskNames)

def Given (name : List Char) (words : List Word) : Prop := ∃ p ∈ pairs words, p.1.val = name

/-- The track and the file are the values of the last options, the problem is the first two
characters of the track, and the additional keys and values are the remaining options. -/
structure Usable (words : List Word) (task : TaskSpecification) : Prop where
  track : ∃ track, lastValue "-p".toList words = some track ∧ task.track = .string track ∧
    task.problem = .string (track.val.take 2)
  file : ∃ file, lastValue "-f".toList words = some file ∧ task.file = .string file
  number : task.numberOfAdditionalArguments = (others words).length
  keys : task.additionalKeys = (others words).map fun p => .string p.1
  values : task.additionalValues = (others words).map fun p => .string p.2

/-- A task is usable, no task is returned only where information is asked for or no track or no
file is given, and no field is dereferenced that is unset or null. -/
def Handled.Correct (words : List Word) : Handled → Prop
  | .null _ => (∃ o ∈ options words, o.1 ∈ infoNames) ∨ ¬ Given "-p".toList words ∨
    ¬ Given "-f".toList words
  | .task t => Usable words t
  | .invalid => False

/-- Information is asked for, fewer than two options are counted, or a track and a file are given
and an option without a value is the argument's or the format's. -/
def Sufficient (words : List Word) : Prop :=
  (∃ o ∈ options words, o.1 ∈ infoNames) ∨
  (options words).countP (·.1 ∈ countedNames) < 2 ∨
  Given "-p".toList words ∧ Given "-f".toList words ∧
    ∀ word ∈ trailing words, word.val = "-a".toList ∨ word.val = "-fo".toList

section Usable
variable {words : List Word} {name : List Char}

theorem lastValue_isSome : (lastValue name words).isSome = true ↔ Given name words := by
  simp [lastValue, Given]

theorem given_of_lastValue {value : Word} (h : lastValue name words = some value) :
    Given name words := lastValue_isSome.1 (by rw [h]; rfl)

theorem valuesOf_options : valuesOf name (options words) =
    ((pairs words).filter (·.1.val = name)).map (fun p => .string p.2) ++
      ((trailing words).toList.filter (·.val = name)).map fun _ => .null := by
  simp only [valuesOf, options, List.filter_append, List.map_append, List.filter_map, List.map_map,
    Function.comp_def]

theorem additional_options : additional (options words) =
    (others words).map (fun p => (p.1.val, .string p.2)) ++
      ((trailing words).toList.filter (·.val ∉ taskNames)).map fun word => (word.val, .null) := by
  simp only [additional, options, others, List.filter_append, List.filter_map, Function.comp_def]

/-- A last option without a value leaves a null pointer. -/
theorem getLast_valuesOf_trailing (h : ∃ word ∈ trailing words, word.val = name) :
    (valuesOf name (options words)).getLast?.getD .unset = .null := by
  obtain ⟨word, hword, rfl⟩ := h
  rw [valuesOf_options, Option.mem_def.1 hword]
  simp

theorem getLast_valuesOf (h : ∀ word ∈ trailing words, word.val ≠ name) {value : Word}
    (hvalue : lastValue name words = some value) :
    (valuesOf name (options words)).getLast?.getD .unset = .string value := by
  have htrailing : (trailing words).toList.filter (·.val = name) = [] := by
    rw [List.filter_eq_nil_iff]
    intro word hword
    simpa using h word (Option.mem_toList.1 hword)
  have hlast : ((pairs words).filter (·.1.val = name)).getLast?.map Prod.snd = some value := by
    rw [← List.getLast?_map]
    exact hvalue
  rw [valuesOf_options, htrailing, List.map_nil, List.append_nil, List.getLast?_map]
  obtain ⟨p, hp, rfl⟩ := Option.map_eq_some_iff.1 hlast
  rw [hp]
  rfl

theorem two_le_countP (hp : Given "-p".toList words) (hf : Given "-f".toList words) :
    2 ≤ (options words).countP (·.1 ∈ countedNames) := by
  obtain ⟨p, hp, hpname⟩ := hp
  obtain ⟨f, hf, hfname⟩ := hf
  have hmem (q : Word × Word) (hq : q ∈ pairs words) (hname : q.1.val ∈ countedNames) :
      (q.1.val, Pointer.string q.2) ∈ (options words).filter (·.1 ∈ countedNames) := by
    rw [List.mem_filter]
    exact ⟨List.mem_append_left _ (List.mem_map_of_mem hq), by simpa using hname⟩
  have hne : (p.1.val, Pointer.string p.2) ≠ (f.1.val, Pointer.string f.2) := by
    intro h
    have := (Prod.mk.inj h).1
    rw [hpname, hfname] at this
    revert this
    decide
  have hsub : [(p.1.val, Pointer.string p.2), (f.1.val, Pointer.string f.2)] ⊆
      (options words).filter (·.1 ∈ countedNames) := by
    intro o ho
    rw [List.mem_pair] at ho
    rcases ho with rfl | rfl
    · exact hmem p hp (by rw [hpname]; decide)
    · exact hmem f hf (by rw [hfname]; decide)
  have hnodup := List.nodup_cons.2 ⟨mt List.mem_singleton.1 hne, List.nodup_singleton _⟩
  rw [List.countP_eq_length_filter]
  exact (List.subperm_of_subset hnodup hsub).length_le

/-- The first two characters, whatever follows the word in memory. -/
theorem copyProblem_eq (track : Word) (next : Char) :
    copyProblem track next = track.val.take 2 := by
  obtain ⟨track, h⟩ := track
  match track with
  | [] => rfl
  | [a] =>
    have ha : a ≠ Char.ofNat 0 := by
      rintro rfl
      exact h List.mem_cons_self
    simp [copyProblem, ha]
  | a :: b :: rest =>
    have ha : a ≠ Char.ofNat 0 := by
      rintro rfl
      exact h List.mem_cons_self
    have hb : b ≠ Char.ofNat 0 := by
      rintro rfl
      exact h (List.mem_cons_of_mem _ List.mem_cons_self)
    simp [copyProblem, ha, hb]

end Usable

section Handle
variable (info : SolverInformation) (next : Char) {argv : List Word}

theorem cmdHandle_info (h : ∃ o ∈ options (argv.drop 1), o.1 ∈ infoNames) :
    ∃ printed, cmdHandle info next argv = .null printed := by
  obtain ⟨printed, hrun⟩ := run_info info { task := .malloc, param := 0 } h
  exact ⟨printed, by rw [cmdHandle, cmdLoop_eq, hrun]⟩

theorem cmdHandle_read (h : ∀ o ∈ options (argv.drop 1), o.1 ∉ infoNames) :
    ∃ st, Read (options (argv.drop 1)) st ∧ cmdHandle info next argv =
      if st.param < 2 then .null (info.description ++ ['\n'])
      else match st.task.track with
        | .string track => .task { st.task with
            problem := .string (copyProblem track next), arg := some (-1) }
        | _ => .invalid := by
  obtain ⟨st, hrun, hread⟩ := read_malloc.run info h
  refine ⟨st, hread, ?_⟩
  rw [cmdHandle, cmdLoop_eq, hrun]

/-- A last option that is the argument's or the format's is not among the additional ones. -/
theorem additional_eq_others {words : List Word}
    (ht : ∀ word ∈ trailing words, word.val = "-a".toList ∨ word.val = "-fo".toList) :
    additional (options words) = (others words).map fun p => (p.1.val, .string p.2) := by
  have htrailing : (trailing words).toList.filter (·.val ∉ taskNames) = [] := by
    rw [List.filter_eq_nil_iff]
    intro word hword
    cases ht word (Option.mem_toList.1 hword) with
    | inl h =>
      rw [h]
      decide
    | inr h =>
      rw [h]
      decide
  rw [additional_options, htrailing, List.map_nil, List.append_nil]

/-- A track and a file with values, and no other option that lacks one. -/
theorem usable_of_given (next : Char) {words : List Word} {st : CmdState}
    (hread : Read (options words) st) (hp : Given "-p".toList words) (hf : Given "-f".toList words)
    (ht : ∀ word ∈ trailing words, word.val = "-a".toList ∨ word.val = "-fo".toList) :
    ∃ track : Word, st.task.track = .string track ∧ Usable words { st.task with
      problem := .string (copyProblem track next), arg := some (-1) } := by
  obtain ⟨track, htrack⟩ := Option.isSome_iff_exists.1 (lastValue_isSome.2 hp)
  obtain ⟨file, hfile⟩ := Option.isSome_iff_exists.1 (lastValue_isSome.2 hf)
  have hname (name : List Char) (ha : "-a".toList ≠ name) (hfo : "-fo".toList ≠ name) :
      ∀ word ∈ trailing words, word.val ≠ name := by
    intro word hword
    cases ht word hword with
    | inl h => rwa [h]
    | inr h => rwa [h]
  have hstring : st.task.track = .string track := by
    rw [hread.track_eq]
    exact getLast_valuesOf (hname _ (by decide) (by decide)) htrack
  have hadditional := additional_eq_others ht
  refine ⟨track, hstring, ?_⟩
  constructor
  · exact ⟨track, htrack, hstring, congrArg Pointer.string (copyProblem_eq track next)⟩
  · refine ⟨file, hfile, ?_⟩
    dsimp only
    rw [hread.file_eq]
    exact getLast_valuesOf (hname _ (by decide) (by decide)) hfile
  · dsimp only
    rw [hread.number_eq, hadditional, List.length_map]
  · dsimp only
    rw [hread.keys_eq, hadditional, List.map_map]
    rfl
  · dsimp only
    rw [hread.values_eq, hadditional, List.map_map]
    rfl

/-- A trailing option without a value shows in a usable task unless it is the argument's or the
format's. -/
theorem trailing_of_usable {words : List Word} {st : CmdState} (hread : Read (options words) st)
    {task : TaskSpecification} (h : Usable words task) (htrack : task.track = st.task.track)
    (hfile : task.file = st.task.file) (hvalues : task.additionalValues = st.task.additionalValues) :
    ∀ word ∈ trailing words, word.val = "-a".toList ∨ word.val = "-fo".toList := by
  intro word hword
  by_contra hnot
  by_cases hp : word.val = "-p".toList
  · obtain ⟨track, -, hstring, -⟩ := h.track
    rw [htrack, hread.track_eq, getLast_valuesOf_trailing ⟨word, hword, hp⟩] at hstring
    cases hstring
  by_cases hf : word.val = "-f".toList
  · obtain ⟨file, -, hstring⟩ := h.file
    rw [hfile, hread.file_eq, getLast_valuesOf_trailing ⟨word, hword, hf⟩] at hstring
    cases hstring
  -- the null pointer is among the additional values
  have hother : word.val ∉ taskNames := by
    rw [not_or] at hnot
    simp only [taskNames, List.mem_cons, List.not_mem_nil, or_false, not_or]
    exact ⟨hp, hf, hnot.1, hnot.2⟩
  have hnull : Pointer.null ∈ task.additionalValues := by
    rw [hvalues, hread.values_eq, additional_options, Option.mem_def.1 hword]
    simp [hother]
  rw [h.values, List.mem_map] at hnull
  obtain ⟨p, -, hp⟩ := hnull
  cases hp

/-- The command is handled correctly exactly for these words. -/
theorem cmdHandle_correct_iff (info : SolverInformation) (next : Char) (argv : List Word) :
    (cmdHandle info next argv).Correct (argv.drop 1) ↔ Sufficient (argv.drop 1) := by
  by_cases hinfo : ∃ o ∈ options (argv.drop 1), o.1 ∈ infoNames
  · obtain ⟨printed, hnull⟩ := cmdHandle_info info next hinfo
    rw [hnull]
    exact iff_of_true (.inl hinfo) (.inl hinfo)
  have hnone : ∀ o ∈ options (argv.drop 1), o.1 ∉ infoNames :=
    fun o ho hname => hinfo ⟨o, ho, hname⟩
  obtain ⟨st, hread, heq⟩ := cmdHandle_read info next hnone
  rw [heq, Sufficient, ← hread.param_eq]
  by_cases hparam : st.param < 2
  · rw [if_pos hparam]
    refine iff_of_true (.inr ?_) (.inr (.inl hparam))
    rw [← not_and_or]
    rintro ⟨hp, hf⟩
    have htwo := two_le_countP hp hf
    rw [← hread.param_eq] at htwo
    omega
  rw [if_neg hparam]
  constructor
  · intro h
    refine .inr (.inr ?_)
    cases htrack : st.task.track with
    | unset =>
      rw [htrack] at h
      exact h.elim
    | null =>
      rw [htrack] at h
      exact h.elim
    | string track =>
      rw [htrack] at h
      obtain ⟨_, hp, -⟩ := h.track
      obtain ⟨_, hf, -⟩ := h.file
      exact ⟨given_of_lastValue hp, given_of_lastValue hf, trailing_of_usable hread h rfl rfl rfl⟩
  · rintro (h | h | ⟨hp, hf, ht⟩)
    · exact absurd h hinfo
    · exact absurd h hparam
    · obtain ⟨track, htrack, h⟩ := usable_of_given next hread hp hf ht
      rw [htrack]
      exact h

end Handle

def formatWithoutFile : List Word :=
  [⟨"taas".toList, by decide⟩, ⟨"-p".toList, by decide⟩, ⟨"SE-PR".toList, by decide⟩,
    ⟨"-fo".toList, by decide⟩, ⟨"i23".toList, by decide⟩]

/-- The format is counted for the file: a task without a file is returned. -/
theorem cmdHandle_formatWithoutFile :
    ¬ (cmdHandle ⟨[], [], []⟩ 'x' formatWithoutFile).Correct (formatWithoutFile.drop 1) := by
  intro h
  obtain ⟨file, -, hstring⟩ := Usable.file h
  cases hstring

end TaasFudge.Cmd
