import TaasFudge.Taas.I23
import TaasFudge.Taas.Labels
import TaasFudge.Taas.PrintBuffer

/-! # The printers of labelings

What the printers write, split at the separators, gives the labeling back. The names of a framework
that was read in the ICCMA23 format have ten digits at most.
-/

namespace TaasFudge

variable {n : ℕ}

def labPrint (mem : ℕ → Char) (lab : Labeling) (aaf : AAF n) : Option (Block Char) :=
  printEntries mem ['['] 4 ',' [']'] (fun idx : Fin n => !lab.twoValued && lab.labOut.get idx)
    (fun idx => (aaf.ids2arguments idx).toList) (fun _ => []) (lab.labIn.members n)

def labPrintI23 (mem : ℕ → Char) (lab : Labeling) (aaf : AAF n) : Option (Block Char) :=
  printEntries mem ['w', ' '] 4 ' ' [] (fun idx : Fin n => !lab.twoValued && lab.labOut.get idx)
    (fun idx => (aaf.ids2arguments idx).toList) (fun _ => []) (lab.labIn.members n)

def Label.letter : Label → Char
  | labIn => 'I'
  | labOut => 'O'
  | labUndec => 'U'
  | labUnlabeled => 'X'

def labPrintAsLabeling (mem : ℕ → Char) (lab : Labeling) (aaf : AAF n) : Option (Block Char) :=
  printEntries mem ['['] 6 ',' [']'] (fun _ => false)
    (fun idx : Fin n => (aaf.ids2arguments idx).toList)
    (fun idx => ['=', (lab.getLabel idx).letter]) (List.finRange n)

def fields (sep : Char) (text : List Char) : List (List Char) :=
  (text.splitOn sep).filter (· ≠ [])

theorem fields_intercalate {sep : Char} {items : List (List Char)}
    (h : ∀ item ∈ items, sep ∉ item ∧ item ≠ []) : fields sep ([sep].intercalate items) = items := by
  cases items with
  | nil => rfl
  | cons item items =>
    rw [fields, List.splitOn_intercalate sep (fun x hx => (h x hx).1) (List.cons_ne_nil _ _),
      List.filter_eq_self]
    intro x hx
    exact decide_eq_true (h x hx).2

/-- All writes are inside of the buffer, and the text, split at the separators, gives back the
arguments by their names. -/
def PrintsArguments (aaf : AAF n) (opening : List Char) (sep : Char) (closing : List Char)
    (args : List (Fin n)) (result : Option (Block Char)) : Prop :=
  ∃ str text, result = some str ∧ str.str = some (opening ++ text ++ closing) ∧
    (fields sep text).map (fun name => aaf.arguments2ids (String.ofList name)) = args.map some

/-- All writes are inside of the buffer, and the text gives back every argument, in order, with
the letter of its label. -/
def PrintsLabels (aaf : AAF n) (lab : Labeling) (result : Option (Block Char)) : Prop :=
  ∃ str text, result = some str ∧ str.str = some (['['] ++ text ++ [']']) ∧
    (fields ',' text).map (fun field => field.splitOn '=') =
      (List.finRange n).map fun i => [(aaf.ids2arguments i).toList, [(lab.getLabel i).letter]]

namespace Labeling

def inArguments (lab : Labeling) (n : ℕ) : List (Fin n) :=
  (List.finRange n).filter fun i => lab.getLabel i = .labIn

theorem printed_eq {lab : Labeling} (hin : lab.labIn.length = n) :
    lab.printed n = lab.inArguments n := by
  have hvisit : lab.labIn.visit.Pairwise (· < ·) :=
    (lab.labIn.visitFrom_spec (lab.labIn.length + 1) 0 (by omega)).1
  have hmembers : (lab.labIn.members n).Pairwise (· < ·) := by
    refine hvisit.filterMap _ fun i j hij x hx y hy => ?_
    simp only [Option.dite_none_right_eq_some, Option.some.injEq] at hx hy
    obtain ⟨_, rfl⟩ := hx
    obtain ⟨_, rfl⟩ := hy
    exact hij
  apply (hmembers.filter _).eq_of_mem_iff ((List.pairwise_lt_finRange n).filter _)
  intro i
  rw [List.mem_filter, List.mem_filter, BitSet.mem_members hin]
  cases htwo : lab.twoValued <;> cases hbit : lab.labIn.get i <;> cases hout : lab.labOut.get i <;>
    simp [getLabel, htwo, hbit, hout, List.mem_finRange]

theorem filter_not_skip (lab : Labeling) :
    ((lab.labIn.members n).filter fun idx : Fin n => !(!lab.twoValued && lab.labOut.get idx)) =
      lab.printed n := by
  simp only [Bool.not_and, Bool.not_not]
  rfl

end Labeling

theorem notMem_argNumber (i : Fin n) {c : Char} (h : c.isDigit = false) :
    c ∉ (argNumber i).toList := by
  rw [argNumber_toList]
  exact notMem_toDigits h

/-- A name is at least as long as every number of digits that the numbers below it fill. -/
theorem lt_length_argNumber {i : Fin n} {k : ℕ} (hk : 0 < k) (h : 10 ^ k ≤ (i : ℕ) + 1) :
    k < (argNumber i).length := by
  rw [← String.length_toList, argNumber_toList]
  by_contra hle
  have hlt := (Nat.length_toDigits_le_iff (by decide) hk).1 (Nat.le_of_not_lt hle)
  omega

theorem joinNames_eq_intercalate {sep : String} {c : Char} (hsep : sep.toList = [c])
    (names : List String) :
    (joinNames sep names).toList = [c].intercalate (names.map String.toList) := by
  cases names with
  | nil => rfl
  | cons name names =>
    rw [joinNames_toList, List.map_cons, PrintBuffer.intercalate_eq_flatMap, hsep]
    rfl

theorem Label.notMem_letter {c : Char} (h : c.isAlpha = false) (label : Label) :
    c ∉ [label.letter] := by
  rw [List.mem_singleton]
  rintro rfl
  cases label <;> cases h

section Names
variable {aaf : AAF n} (mem : ℕ → Char) (hnames : aaf.ids2arguments = argNumber) (hn : n < 2 ^ 31)
  {lab : Labeling} {opening closing : List Char} {sep : Char}

omit hnames in
include hn in
theorem length_argNumber_le (i : Fin n) : (argNumber i).toList.length ≤ 10 := by
  rw [argNumber_toList]
  apply (Nat.length_toDigits_le_iff (by decide) (by decide)).2
  omega

include hnames hn

theorem printable_arguments (l : List (Fin n)) (hopening : opening.length ≤ 2)
    (hclosing : closing.length ≤ 1) (hnul : Char.ofNat 0 ∉ opening ++ sep :: closing) :
    PrintBuffer.Printable opening 4 sep closing (fun idx => (aaf.ids2arguments idx).toList)
      (fun _ => []) l where
  opening_le := hopening
  closing_le := hclosing
  short i _ := by
    have hlength := length_argNumber_le hn i
    rw [hnames]
    constructor
    · rw [List.length_nil]
      omega
    · rfl
  nul_notMem := hnul
  nul_notMem_entry i _ := by
    rw [hnames, List.append_nil]
    exact notMem_argNumber i (by decide)

/-- The string of a printer of the arguments that are IN. -/
theorem printedArguments_str (hopening : opening.length ≤ 2) (hclosing : closing.length ≤ 1)
    (hnul : Char.ofNat 0 ∉ opening ++ sep :: closing) {str : Block Char}
    (h : printEntries mem opening 4 sep closing
      (fun idx : Fin n => !lab.twoValued && lab.labOut.get idx)
      (fun idx => (aaf.ids2arguments idx).toList) (fun _ => []) (lab.labIn.members n) = some str) :
    str.str = some (opening ++
      [sep].intercalate ((lab.printed n).map fun i => (aaf.ids2arguments i).toList) ++ closing) := by
  have hprintable := printable_arguments hnames hn (lab.printed n) hopening hclosing hnul
  simpa only [List.append_nil] using hprintable.str mem lab.filter_not_skip h

theorem printsArguments_iff (hin : lab.labIn.length = n) (hopening : opening.length ≤ 2)
    (hclosing : closing.length ≤ 1) (hsep : sep.isDigit = false)
    (hnul : Char.ofNat 0 ∉ opening ++ sep :: closing) :
    PrintsArguments aaf opening sep closing (lab.inArguments n)
      (printEntries mem opening 4 sep closing
        (fun idx : Fin n => !lab.twoValued && lab.labOut.get idx)
        (fun idx => (aaf.ids2arguments idx).toList) (fun _ => []) (lab.labIn.members n)) ↔
      opening.length + ((lab.inArguments n).map fun i => (aaf.ids2arguments i).length + 1).sum + 2 ≤
        PrintBuffer.maxLen := by
  have hlookup : ∀ i : Fin n, aaf.arguments2ids (argNumber i) = some i := by
    intro i
    apply (arguments2ids_eq_some (hnames ▸ argNumber_injective)).2
    rw [hnames]
  have htotal : PrintBuffer.total (fun i => (aaf.ids2arguments i).toList) (fun _ => [])
      (lab.inArguments n) =
        ((lab.inArguments n).map fun i => (aaf.ids2arguments i).length + 1).sum := by
    simp only [PrintBuffer.total, List.append_nil, String.length_toList]
  rw [← htotal]
  apply (printable_arguments hnames hn _ hopening hclosing hnul).iff mem
    (lab.filter_not_skip.trans (Labeling.printed_eq hin))
  simp only [List.append_nil, hnames]
  rw [fields_intercalate, List.map_map]
  · apply List.map_congr_left
    intro i _
    rw [Function.comp_apply, String.ofList_toList, hlookup]
  · rw [List.forall_mem_map]
    intro i _
    exact ⟨notMem_argNumber i hsep, argNumber_toList_ne_nil i⟩

omit hnames hn in
theorem notMem_labelEntry (i : Fin n) {c : Char} (hdigit : c.isDigit = false) (hne : c ≠ '=')
    (halpha : c.isAlpha = false) :
    c ∉ (argNumber i).toList ++ ['=', (lab.getLabel i).letter] := by
  rw [List.mem_append, List.mem_cons, not_or, not_or]
  exact ⟨notMem_argNumber i hdigit, hne, (lab.getLabel i).notMem_letter halpha⟩

theorem printable_labels (lab : Labeling) :
    PrintBuffer.Printable ['['] 6 ',' [']'] (fun idx : Fin n => (aaf.ids2arguments idx).toList)
      (fun idx => ['=', (lab.getLabel idx).letter]) (List.finRange n) where
  opening_le := by decide
  closing_le := by decide
  short i _ := by
    have hlength := length_argNumber_le hn i
    rw [hnames]
    constructor
    · simp only [List.length_cons, List.length_nil]
      omega
    · rfl
  nul_notMem := by decide
  nul_notMem_entry i _ := by
    rw [hnames]
    exact notMem_labelEntry i (by decide) (by decide) (by decide)

theorem printsLabels_iff :
    PrintsLabels aaf lab (labPrintAsLabeling mem lab aaf) ↔
      1 + ((List.finRange n).map fun i => (aaf.ids2arguments i).length + 3).sum + 2 ≤
        PrintBuffer.maxLen := by
  have htotal : PrintBuffer.total (fun i => (aaf.ids2arguments i).toList)
      (fun i => ['=', (lab.getLabel i).letter]) (List.finRange n) =
        ((List.finRange n).map fun i => (aaf.ids2arguments i).length + 3).sum := by
    simp only [PrintBuffer.total, List.length_append, String.length_toList]
    rfl
  rw [← htotal]
  apply (printable_labels hnames hn lab).iff mem (List.filter_true _)
  rw [hnames, fields_intercalate, List.map_map]
  · apply List.map_congr_left
    intro i _
    rw [Function.comp_apply, List.splitOn_append_cons_self,
      List.splitOn_eq_singleton (notMem_argNumber i (by decide)),
      List.splitOn_eq_singleton ((lab.getLabel i).notMem_letter (by decide))]
    rfl
  · rw [List.forall_mem_map]
    intro i _
    constructor
    · exact notMem_labelEntry i (by decide) (by decide) (by decide)
    · exact List.append_ne_nil_of_right_ne_nil _ (List.cons_ne_nil _ _)

end Names

section FromFile
variable {file : List Char} {r : ReadAaf n} (h : readFileI23 file = some ⟨n, r⟩) (hn : n < 2 ^ 31)
  (mem : ℕ → Char) {lab : Labeling}
include h hn

/-- What `taas__lab_print` returns is the text that the tasks print. -/
theorem labPrint_str {str : Block Char} (hprint : labPrint mem lab r.aaf = some str) :
    str.str = some (lab.print r.aaf).toList := by
  rw [printedArguments_str mem (funext (readFileI23_names h)) hn (by decide) (by decide)
    (by decide) hprint, Labeling.print, foldl_first, String.toList_append, String.toList_append,
    joinNames_eq_intercalate rfl, List.map_map]
  rfl

/-- What `taas__lab_print_i23` returns is the text that the tasks print. -/
theorem labPrintI23_str {str : Block Char} (hprint : labPrintI23 mem lab r.aaf = some str) :
    str.str = some (lab.printI23 r.aaf).toList := by
  rw [printedArguments_str mem (funext (readFileI23_names h)) hn (by decide) (by decide)
    (by decide) hprint, Labeling.printI23, foldl_first, String.toList_append,
    joinNames_eq_intercalate rfl, List.map_map, List.append_nil]
  rfl

/-- The printers stay inside of the buffer and print what gives back the labeling exactly when the
names that they write, with their separators and letters, fit: the length of the buffer is an
`int`. -/
theorem labPrinters_iff (hin : lab.labIn.length = n) :
    (PrintsArguments r.aaf ['['] ',' [']'] (lab.inArguments n) (labPrint mem lab r.aaf) ↔
      ((lab.inArguments n).map fun i => (r.aaf.ids2arguments i).length + 1).sum ≤ 2147483597) ∧
    (PrintsArguments r.aaf ['w', ' '] ' ' [] (lab.inArguments n) (labPrintI23 mem lab r.aaf) ↔
      ((lab.inArguments n).map fun i => (r.aaf.ids2arguments i).length + 1).sum ≤ 2147483596) ∧
    (PrintsLabels r.aaf lab (labPrintAsLabeling mem lab r.aaf) ↔
      ((List.finRange n).map fun i => (r.aaf.ids2arguments i).length + 3).sum ≤ 2147483597) := by
  have hnames : r.aaf.ids2arguments = argNumber := funext (readFileI23_names h)
  constructor
  · apply (printsArguments_iff mem hnames hn hin (by decide) (by decide) (by decide)
      (by decide)).trans
    rw [List.length_singleton, PrintBuffer.maxLen]
    omega
  constructor
  · apply (printsArguments_iff mem hnames hn hin (by decide) (by decide) (by decide)
      (by decide)).trans
    rw [List.length_cons, List.length_singleton, PrintBuffer.maxLen]
    omega
  · apply (printsLabels_iff mem hnames hn).trans
    rw [PrintBuffer.maxLen]
    omega

end FromFile

def allIn (n : ℕ) : Labeling where
  labIn := (BitSet.init (fun _ => 0#32) n).setAll
  labOut := BitSet.init (fun _ => 0#32) n
  twoValued := true

theorem allIn_inArguments (n : ℕ) : (allIn n).inArguments n = List.finRange n := by
  rw [Labeling.inArguments, List.filter_eq_self]
  intro i _
  have hget : (allIn n).labIn.get i = true := BitSet.get_setAll _ (Nat.le_of_lt i.isLt)
  rw [Labeling.getLabel_of_twoValued rfl, hget]
  rfl

/-- Names from the index `m` on have more than `k` digits. -/
theorem le_sum_lengths {aaf : AAF n} (hnames : aaf.ids2arguments = argNumber) {k m : ℕ}
    (hk : 0 < k) (hm : 10 ^ k ≤ m) (hmn : m < n) (c : ℕ) :
    (n - m) * (k + 1 + c) ≤ ((List.finRange n).map fun i => (aaf.ids2arguments i).length + c).sum := by
  have hlength : ∀ i ∈ Finset.Ici (⟨m, hmn⟩ : Fin n),
      k + 1 + c ≤ (aaf.ids2arguments i).length + c := by
    intro i hi
    have hmi : (⟨m, hmn⟩ : Fin n) ≤ i := Finset.mem_Ici.1 hi
    have hval : m ≤ (i : ℕ) := hmi
    rw [hnames]
    exact Nat.add_le_add_right (lt_length_argNumber hk (by omega)) c
  rw [← List.ofFn_eq_map, List.sum_ofFn]
  calc (n - m) * (k + 1 + c)
      = (Finset.Ici (⟨m, hmn⟩ : Fin n)).card • (k + 1 + c) := by rw [Fin.card_Ici, smul_eq_mul]
    _ ≤ ∑ i ∈ Finset.Ici (⟨m, hmn⟩ : Fin n), ((aaf.ids2arguments i).length + c) :=
      Finset.card_nsmul_le_sum _ _ _ hlength
    _ ≤ ∑ i, ((aaf.ids2arguments i).length + c) :=
      Finset.sum_le_sum_of_subset (Finset.subset_univ _)

theorem readFileI23_header (hn : n ≤ intMax) : readFileI23 (headerText n ⟨[], nofun⟩) =
    some ⟨n, ReadAaf.start fun i : Fin n => i23Name i⟩ := by
  have hread := readFileI23_i23File hn [] ⟨[], nofun⟩ []
  rw [i23File, List.map_nil, List.nil_append, List.map_nil, List.intercalate_singleton] at hread
  exact hread

/-- Two arguments. -/
theorem labPrinters_two :
    ∃ r : ReadAaf 2, readFileI23 "p af 2".toList = some ⟨2, r⟩ ∧ ∀ mem : ℕ → Char,
      PrintsArguments r.aaf ['['] ',' [']'] [0, 1] (labPrint mem (allIn 2) r.aaf) ∧
      PrintsArguments r.aaf ['w', ' '] ' ' [] [0, 1] (labPrintI23 mem (allIn 2) r.aaf) ∧
      PrintsLabels r.aaf (allIn 2) (labPrintAsLabeling mem (allIn 2) r.aaf) := by
  have hread : readFileI23 "p af 2".toList = _ := readFileI23_header (n := 2) (by decide)
  have hin : (allIn 2).inArguments 2 = [0, 1] := allIn_inArguments 2
  refine ⟨_, hread, fun mem => ?_⟩
  have hlength : (allIn 2).labIn.length = 2 := rfl
  obtain ⟨hbrackets, hblanks, hlabels⟩ := labPrinters_iff hread (by decide) mem hlength
  rw [hin] at hbrackets hblanks
  exact ⟨hbrackets.2 (by decide), hblanks.2 (by decide), hlabels.2 (by decide)⟩

/-- With 400000000 arguments that are all IN, no text fits: three quarters of the names have nine
digits. -/
theorem labPrinters_manyArguments :
    ∃ r : ReadAaf 400000000, readFileI23 "p af 400000000".toList = some ⟨400000000, r⟩ ∧
      ∀ mem : ℕ → Char,
        ¬ PrintsArguments r.aaf ['['] ',' [']'] ((allIn 400000000).inArguments 400000000)
          (labPrint mem (allIn 400000000) r.aaf) ∧
        ¬ PrintsArguments r.aaf ['w', ' '] ' ' [] ((allIn 400000000).inArguments 400000000)
          (labPrintI23 mem (allIn 400000000) r.aaf) ∧
        ¬ PrintsLabels r.aaf (allIn 400000000)
          (labPrintAsLabeling mem (allIn 400000000) r.aaf) := by
  have hread : readFileI23 "p af 400000000".toList = _ :=
    readFileI23_header (n := 400000000) (by decide)
  have hnames := funext (readFileI23_names hread)
  have hn : 400000000 < 2 ^ 31 := by decide
  have hin : (allIn 400000000).labIn.length = 400000000 := rfl
  have hsum : ∀ c, 300000000 * (9 + c) ≤ _ :=
    le_sum_lengths hnames (k := 8) (m := 100000000) (by decide) (by decide) (by decide)
  refine ⟨_, hread, fun mem => ⟨fun h => ?_, fun h => ?_, fun h => ?_⟩⟩
  · have hfit := (printsArguments_iff mem hnames hn hin (by decide) (by decide) (by decide)
      (by decide)).1 h
    rw [allIn_inArguments, PrintBuffer.maxLen] at hfit
    have hlong := hsum 1
    omega
  · have hfit := (printsArguments_iff mem hnames hn hin (by decide) (by decide) (by decide)
      (by decide)).1 h
    rw [allIn_inArguments, PrintBuffer.maxLen] at hfit
    have hlong := hsum 1
    omega
  · have hfit := (printsLabels_iff mem hnames hn).1 h
    rw [PrintBuffer.maxLen] at hfit
    have hlong := hsum 3
    omega

end TaasFudge
