import TaasFudge.Taas.Cmd

/-! # What a command asks for

Reading the words of the command line comes to this: the first option that asks for information
decides, else the last option of each name.
-/

namespace TaasFudge.Cmd

variable {opts : List (List Char × Pointer)}

/-- The value of the last option of a name. -/
def finalValue (name : List Char) (start : Pointer) (opts : List (List Char × Pointer)) : Pointer :=
  (valuesOf name opts).getLast?.getD start

def information (info : SolverInformation) (opts : List (List Char × Pointer)) :
    Option (List Char) :=
  opts.findSome? fun o =>
    if o.1 = "--formats".toList then some (info.formats ++ ['\n'])
    else if o.1 = "--problems".toList then some (info.problems ++ ['\n'])
    else none

def stateOf (opts : List (List Char × Pointer)) : CmdState where
  task := {
    track := finalValue "-p".toList .unset opts
    problem := .unset
    file := finalValue "-f".toList .unset opts
    format := finalValue "-fo".toList .null opts
    arg := none
    argAsString := finalValue "-a".toList .unset opts
    numberOfAdditionalArguments := (additional opts).length
    additionalKeys := (additional opts).map fun o => .string o.1
    additionalValues := (additional opts).map Prod.snd }
  param := counted opts

@[simp] theorem finalValue_append (name : List Char) (start : Pointer) (o : List Char × Pointer) :
    finalValue name start (opts ++ [o]) = if o.1 = name then o.2 else finalValue name start opts :=
  getLast_valuesOf_append name o start

theorem stateOf_append (o : List Char × Pointer) : stateOf (opts ++ [o]) = {
    task := { (stateOf opts).task with
      track := if o.1 = "-p".toList then o.2 else (stateOf opts).task.track
      file := if o.1 = "-f".toList then o.2 else (stateOf opts).task.file
      format := if o.1 = "-fo".toList then o.2 else (stateOf opts).task.format
      argAsString := if o.1 = "-a".toList then o.2 else (stateOf opts).task.argAsString
      numberOfAdditionalArguments := (stateOf opts).task.numberOfAdditionalArguments +
        if o.1 ∉ taskNames then 1 else 0
      additionalKeys := (stateOf opts).task.additionalKeys ++
        if o.1 ∉ taskNames then [.string o.1] else []
      additionalValues := (stateOf opts).task.additionalValues ++
        if o.1 ∉ taskNames then [o.2] else [] }
    param := (stateOf opts).param + if o.1 ∈ countedNames then 1 else 0 } := by
  simp only [stateOf, counted, finalValue_append, additional_append, List.length_append,
    List.map_append, List.countP_append, List.countP_singleton, decide_eq_true_eq]
  by_cases h : o.1 ∈ taskNames
  · simp only [h, not_true, if_false, List.length_nil, List.map_nil]
  · simp only [h, not_false_eq_true, if_true, List.length_singleton, List.map_singleton]

theorem cmdRound_stateOf (info : SolverInformation) {o : List Char × Pointer}
    (h : o.1 ∉ infoNames) :
    cmdRound info o.1 o.2 (stateOf opts) = .ok (stateOf (opts ++ [o])) := by
  obtain ⟨name, value⟩ := o
  rw [infoNames, List.mem_pair, not_or] at h
  rw [stateOf_append, cmdRound, if_neg h.1, if_neg h.2]
  dsimp only
  by_cases htask : name ∈ taskNames
  · simp only [htask, not_true, if_false, List.append_nil, Nat.add_zero]
    rw [taskNames, List.mem_cons, List.mem_cons, List.mem_pair] at htask
    -- one of the four options of the task
    rcases htask with rfl | rfl | rfl | rfl <;> rfl
  · obtain ⟨hp, hf, ha, hfo, hcounted⟩ := ne_of_notMem_taskNames htask
    simp only [hp, hf, ha, hfo, htask, hcounted, if_false, not_false_eq_true, if_true]
    rfl

/-- The loop enters all options, unless one of them asks for information. -/
theorem foldlM_cmdRound (info : SolverInformation) (opts l : List (List Char × Pointer)) :
    l.foldlM (fun st o => cmdRound info o.1 o.2 st) (stateOf opts) =
      match information info l with
      | some text => .error text
      | none => .ok (stateOf (opts ++ l)) := by
  induction l generalizing opts with
  | nil => rw [List.append_nil]; rfl
  | cons o l ih =>
    rw [List.foldlM_cons]
    by_cases h : o.1 ∈ infoNames
    · rw [infoNames, List.mem_pair] at h
      obtain ⟨name, value⟩ := o
      rcases h with rfl | rfl <;> rfl
    · rw [cmdRound_stateOf info h]
      rw [infoNames, List.mem_pair, not_or] at h
      have hnone : information info (o :: l) = information info l := by
        rw [information, List.findSome?_cons, if_neg h.1, if_neg h.2]
        rfl
      rw [hnone]
      have hrest := ih (opts ++ [o])
      rw [List.append_assoc] at hrest
      exact hrest

theorem nul_notMem_of_mem_options {words : List Word} {o : List Char × Pointer} {str : List Char}
    (ho : o ∈ options words) (h : o.2 = .string str) : Char.ofNat 0 ∉ str := by
  rcases List.mem_append.1 ho with ho | ho
  · obtain ⟨p, -, rfl⟩ := List.mem_map.1 ho
    cases h
    exact p.2.2
  · obtain ⟨word, -, rfl⟩ := List.mem_map.1 ho
    cases h

theorem nul_notMem_finalValue {words : List Word} {name str : List Char} {start : Pointer}
    (h : finalValue name start (options words) = .string str) (hstart : start ≠ .string str) :
    Char.ofNat 0 ∉ str := by
  rw [finalValue] at h
  cases hlast : (valuesOf name (options words)).getLast? with
  | none =>
    rw [hlast] at h
    exact absurd h hstart
  | some value =>
    rw [hlast, Option.getD_some] at h
    obtain ⟨o, ho, hvalue⟩ := List.mem_map.1 (List.mem_of_getLast? hlast)
    exact nul_notMem_of_mem_options (List.mem_filter.1 ho).1 (hvalue.trans h)

def handle (info : SolverInformation) (opts : List (List Char × Pointer)) : Handled :=
  match information info opts with
  | some text => .null text
  | none =>
    if (stateOf opts).param < 2 then .null (info.description ++ ['\n'])
    else match (stateOf opts).task.track with
      | .string track =>
        .task { (stateOf opts).task with problem := .string (track.take 2), arg := some (-1) }
      | _ => .invalid

theorem cmdHandle_eq (info : SolverInformation) (next : Char) (argv : List Word) :
    cmdHandle info next argv = handle info (options (argv.drop 1)) := by
  have hrun : (options (argv.drop 1)).foldlM (fun st o => cmdRound info o.1 o.2 st)
      ⟨TaskSpecification.malloc, 0⟩ = _ := foldlM_cmdRound info [] (options (argv.drop 1))
  rw [cmdHandle, cmdLoop_eq, hrun, handle]
  cases information info (options (argv.drop 1)) with
  | some text => rfl
  | none =>
    dsimp only
    rw [List.nil_append]
    split_ifs
    · rfl
    · cases htrack : (stateOf (options (argv.drop 1))).task.track with
      | unset => rfl
      | null => rfl
      | string track =>
        have hnul := nul_notMem_finalValue htrack (by simp)
        dsimp only
        rw [copyProblem_eq ⟨track, hnul⟩ next]

def taskGetValue (task : TaskSpecification) (key : List Char) : Pointer :=
  match (List.range task.numberOfAdditionalArguments).find? fun i =>
      decide (task.additionalKeys[i]? = some (.string key)) with
  | some i => task.additionalValues[i]?.getD .null
  | none => .null

theorem find_key (opts : List (List Char × Pointer)) (key : List Char) :
    (match (List.range opts.length).find? fun i =>
        decide ((opts.map fun o => Pointer.string o.1)[i]? = some (.string key)) with
    | some i => (opts.map Prod.snd)[i]?.getD .null
    | none => Pointer.null) = (valuesOf key opts).head?.getD .null := by
  induction opts with
  | nil => rfl
  | cons o opts ih =>
    rw [List.length_cons, List.range_succ_eq_map, List.find?_cons, List.find?_map]
    by_cases h : o.1 = key
    · simp [valuesOf, h]
    · simp only [List.map_cons, List.getElem?_cons_zero, Option.some.injEq, Pointer.string.injEq, h,
        decide_false, Function.comp_def, List.getElem?_cons_succ]
      have hvalues : valuesOf key (o :: opts) = valuesOf key opts := by simp [valuesOf, h]
      rw [hvalues, ← ih]
      cases (List.range opts.length).find? fun i =>
        decide ((opts.map fun o => Pointer.string o.1)[i]? = some (.string key)) <;> rfl

theorem valuesOf_additional (key : List Char) (opts : List (List Char × Pointer)) :
    valuesOf key (additional opts) = if key ∈ taskNames then [] else valuesOf key opts := by
  rw [valuesOf, valuesOf, additional, List.filter_filter]
  split_ifs with hkey
  · rw [List.map_eq_nil_iff, List.filter_eq_nil_iff]
    intro o _ ho
    rw [Bool.and_eq_true, decide_eq_true_iff, decide_eq_true_iff] at ho
    obtain ⟨rfl, hnot⟩ := ho
    exact hnot hkey
  · congr 1
    apply List.filter_congr
    intro o _
    by_cases ho : o.1 = key
    · simp [ho, hkey]
    · simp [ho]

/-- A lookup in the task of a command finds the first option of the name, where the options of the
task take the last; these are never found. -/
theorem taskGetValue_cmdHandle {info : SolverInformation} {next : Char} {argv : List Word}
    {task : TaskSpecification} (h : cmdHandle info next argv = .task task) (key : List Char) :
    taskGetValue task key = if key ∈ taskNames then .null
      else (valuesOf key (options (argv.drop 1))).head?.getD .null := by
  rw [cmdHandle_eq, handle] at h
  generalize options (argv.drop 1) = opts at h ⊢
  have htask : task.numberOfAdditionalArguments = (additional opts).length ∧
      task.additionalKeys = (additional opts).map (fun o => .string o.1) ∧
      task.additionalValues = (additional opts).map Prod.snd := by
    cases hinfo : information info opts with
    | some text =>
      rw [hinfo] at h
      cases h
    | none =>
      rw [hinfo] at h
      dsimp only at h
      split_ifs at h
      cases htrack : (stateOf opts).task.track with
      | unset =>
        rw [htrack] at h
        cases h
      | null =>
        rw [htrack] at h
        cases h
      | string track =>
        rw [htrack] at h
        cases h
        exact ⟨rfl, rfl, rfl⟩
  obtain ⟨hnumber, hkeys, hvalues⟩ := htask
  rw [taskGetValue, hnumber, hkeys, hvalues]
  refine (find_key (additional opts) key).trans ?_
  rw [valuesOf_additional]
  split_ifs <;> rfl

def commandLine (args : List String) : List Word :=
  args.filterMap fun arg => if h : Char.ofNat 0 ∉ arg.toList then some ⟨arg.toList, h⟩ else none

theorem taskGetValue_twice : ∃ task, cmdHandle ⟨[], [], []⟩ 'x' (commandLine
      ["taas-fudge", "-p", "SE-PR", "-o", "1", "-f", "af", "-o", "2"]) = .task task ∧
    taskGetValue task "-o".toList = .string "1".toList := by
  obtain ⟨task, h⟩ : ∃ task, cmdHandle ⟨[], [], []⟩ 'x' (commandLine
      ["taas-fudge", "-p", "SE-PR", "-o", "1", "-f", "af", "-o", "2"]) = .task task := ⟨_, rfl⟩
  exact ⟨task, h, (taskGetValue_cmdHandle h _).trans (by decide)⟩

end TaasFudge.Cmd
