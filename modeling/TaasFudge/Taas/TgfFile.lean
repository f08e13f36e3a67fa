import TaasFudge.Taas.Tgf

/-! # The TGF reader on written files

A file is written as the names of its arguments, a `#` line and its attacks, with blank lines
anywhere. The reader in memory builds the framework exactly when each name fits into the buffer it
is copied to. Where the names are decimals, the framework is the one that the other reader builds.
-/

namespace TaasFudge

variable {n : ℕ}

inductive TgfLine (n : ℕ) where
  | blank (space : LineSpace)
  | attack (source target : Fin n)

/-- The names are strings of bytes, distinct, not empty, without white space and not `#`. Blank lines
stand before each argument, before the `#` line and among the attacks. -/
structure TgfFile (n : ℕ) where
  name : Fin n → List Char
  name_lt : ∀ i, ∀ c ∈ name i, c.toNat < 256
  name_ne_nil : ∀ i, name i ≠ []
  isspace_name : ∀ i, ∀ c ∈ name i, isspace c = false
  name_ne_hash : ∀ i, name i ≠ ['#']
  distinct : Function.Injective name
  blanks : Fin n → List LineSpace
  lastBlanks : List LineSpace
  lines : List (TgfLine n)

namespace TgfFile
variable (F : TgfFile n)

def argumentLines (i : Fin n) : List (List Char) := (F.blanks i).map Subtype.val ++ [F.name i]

def lineText : TgfLine n → List Char
  | .blank space => space
  | .attack source target => F.name source ++ ' ' :: F.name target

/-- The lines from the last blank lines before the `#` line on. -/
def attackLines : List (List Char) :=
  F.lastBlanks.map Subtype.val ++ ['#'] :: F.lines.map F.lineText

/-- The file ends in a newline when its last line is empty. -/
def text : List Char :=
  ['\n'].intercalate ((List.finRange n).flatMap F.argumentLines ++ F.attackLines)

end TgfFile

def TgfLine.attack? : TgfLine n → Option (Fin n × Fin n)
  | blank _ => none
  | attack source target => some (source, target)

def TgfFile.attacks (F : TgfFile n) : List (Fin n × Fin n) := F.lines.filterMap TgfLine.attack?

namespace TgfFile
variable (F : TgfFile n)

theorem newline_notMem_name (i : Fin n) : '\n' ∉ F.name i := by
  intro h
  exact absurd (F.isspace_name i _ h) (by decide)

theorem blank_notMem_name (i : Fin n) : ' ' ∉ F.name i := by
  intro h
  exact absurd (F.isspace_name i _ h) (by decide)

theorem newline_notMem_lineText (line : TgfLine n) : '\n' ∉ F.lineText line := by
  cases line with
  | blank space => exact newline_notMem_space space
  | attack source target =>
    rw [lineText, List.mem_append, List.mem_cons]
    rintro (h | h | h)
    · exact F.newline_notMem_name source h
    · exact absurd h (by decide)
    · exact F.newline_notMem_name target h

variable {F}

theorem trim_name {i : Fin n} (hnul : Char.ofNat 0 ∉ F.name i) {row : List Char}
    (h : RowOf (F.name i) row) : (trimwhitespace row).1 = F.name i := by
  have hne := F.name_ne_nil i
  rw [h.trim hnul hne (F.isspace_name i _ (List.head_mem hne))
    (F.isspace_name i _ (List.getLast_mem hne))]

theorem attackLines_ne_nil : F.attackLines ≠ [] := by simp [attackLines]

theorem tgfArguments_blanks (blanks : List LineSpace) {lines : List (List Char)} (hne : lines ≠ []) :
    tgfArguments (getlines (['\n'].intercalate (blanks.map Subtype.val ++ lines))) =
      tgfArguments (getlines (['\n'].intercalate lines)) := by
  induction blanks with
  | nil => rfl
  | cons space blanks ih =>
    have hrest : blanks.map Subtype.val ++ lines ≠ [] := List.append_ne_nil_of_right_ne_nil _ hne
    obtain ⟨row, hrow, hrows⟩ := getlines_cons_of_ne (newline_notMem_space space) hrest
    rw [List.map_cons, List.cons_append, hrows, tgfArguments]
    dsimp only
    rw [if_pos hrow.trim_blank, ih]

theorem tgfArguments_argument {i : Fin n} (hnul : Char.ofNat 0 ∉ F.name i)
    {lines : List (List Char)} (hne : lines ≠ []) :
    tgfArguments (getlines (['\n'].intercalate (F.argumentLines i ++ lines))) =
      (tgfArguments (getlines (['\n'].intercalate lines))).map fun p => (F.name i :: p.1, p.2) := by
  obtain ⟨row, hrow, hrows⟩ := getlines_cons_of_ne (F.newline_notMem_name i) hne
  rw [argumentLines, List.append_assoc, List.singleton_append,
    tgfArguments_blanks _ (List.cons_ne_nil _ _), hrows, tgfArguments]
  dsimp only
  rw [trim_name hnul hrow, if_neg (F.name_ne_nil i), if_neg (F.name_ne_hash i)]
  cases tgfArguments (getlines (['\n'].intercalate lines)) <;> rfl

/-- The names in order, and the rows of the attack lines. -/
theorem tgfArguments_text (hnul : ∀ i, Char.ofNat 0 ∉ F.name i) :
    tgfArguments (getlines F.text) =
      some (List.ofFn F.name, getlines (['\n'].intercalate (F.lines.map F.lineText))) := by
  have hhash : tgfArguments (getlines (['\n'].intercalate F.attackLines)) =
      some ([], getlines (['\n'].intercalate (F.lines.map F.lineText))) := by
    rw [attackLines, tgfArguments_blanks _ (List.cons_ne_nil _ _)]
    have hnewline : '\n' ∉ ['#'] := by decide
    rcases getlines_cons hnewline (F.lines.map F.lineText) with ⟨hnil, -⟩ | ⟨row, hrow, hrows⟩
    · cases hnil
    · rw [hrows, tgfArguments, hrow.trim (by decide) (by decide) (by decide) (by decide)]
      rfl
  have hall (l : List (Fin n)) :
      tgfArguments (getlines (['\n'].intercalate (l.flatMap F.argumentLines ++ F.attackLines))) =
        some (l.map F.name, getlines (['\n'].intercalate (F.lines.map F.lineText))) := by
    induction l with
    | nil => exact hhash
    | cons i l ih =>
      rw [List.flatMap_cons, List.append_assoc, tgfArguments_argument (hnul i) (by
        rw [ne_eq, List.append_eq_nil_iff, not_and]
        exact fun _ => attackLines_ne_nil), ih]
      rfl
  rw [text, hall, ← List.ofFn_eq_map]

def start (F : TgfFile n) : ReadAaf n := ReadAaf.start fun i => String.ofList (F.name i)

theorem arguments2ids_name {r : ReadAaf n} (hr : r.aaf.ids2arguments = F.start.aaf.ids2arguments)
    (i : Fin n) : r.aaf.arguments2ids (String.ofList (F.name i)) = some i := by
  rw [arguments2ids_eq_some, hr]
  · rfl
  · intro j k hjk
    rw [hr] at hjk
    exact F.distinct (String.ofList_inj.1 hjk)

theorem tgfRow_line (hnul : ∀ i, Char.ofNat 0 ∉ F.name i) (hlength : ∀ i, (F.name i).length ≤ intMax)
    {r : ReadAaf n} (hr : r.aaf.ids2arguments = F.start.aaf.ids2arguments) (line : TgfLine n)
    {row : List Char} (h : RowOf (F.lineText line) row) :
    tgfRow r row = some (r.attackAll line.attack?.toList) := by
  cases line with
  | blank space =>
    rw [tgfRow]
    dsimp only
    rw [if_pos (RowOf.trim_blank h)]
    rfl
  | attack source target =>
    have hne : F.lineText (.attack source target) ≠ [] := by simp [lineText]
    have hnotNul : Char.ofNat 0 ∉ F.lineText (.attack source target) := by
      rw [lineText, List.mem_append, List.mem_cons]
      rintro (h | h | h)
      · exact hnul source h
      · exact absurd h (by decide)
      · exact hnul target h
    have hfirst : isspace ((F.lineText (.attack source target)).head hne) = false := by
      simp only [lineText, List.head_append_of_ne_nil (F.name_ne_nil source)]
      exact F.isspace_name source _ (List.head_mem _)
    have hlast : isspace ((F.lineText (.attack source target)).getLast hne) = false := by
      simp only [lineText, List.getLast_append_of_ne_nil _ (List.cons_ne_nil _ _),
        List.getLast_cons (F.name_ne_nil target)]
      exact F.isspace_name target _ (List.getLast_mem _)
    have hhash : F.lineText (.attack source target) ≠ ['#'] := by
      intro heq
      have hblank : ' ' ∈ F.lineText (.attack source target) := by simp [lineText]
      rw [heq] at hblank
      exact absurd hblank (by decide)
    rw [tgfRow, h.trim hnotNul hne hfirst hlast]
    dsimp only
    rw [if_neg hne, if_neg hhash, lineText,
      splitAtBlank_append (F.blank_notMem_name source) (hlength source)]
    simp [arguments2ids_name hr, TgfLine.attack?]

theorem foldlM_tgfRow_lines (hnul : ∀ i, Char.ofNat 0 ∉ F.name i)
    (hlength : ∀ i, (F.name i).length ≤ intMax) :
    (getlines (['\n'].intercalate (F.lines.map F.lineText))).foldlM tgfRow F.start =
      some (F.start.attackAll F.attacks) := by
  have hrun := foldlM_getlines (P := fun r : ReadAaf n =>
      r.aaf.ids2arguments = F.start.aaf.ids2arguments) (f := tgfRow)
    F.newline_notMem_lineText (fun r line hr => (r.attackAll_names line.attack?.toList).trans hr)
    (fun r line hnil => by
      cases line with
      | blank space => rfl
      | attack source target => simp [lineText] at hnil)
    (fun r line row hr hrow => tgfRow_line hnul hlength hr line hrow) F.lines rfl
  rw [hrun, ReadAaf.foldl_attackAll]
  rfl

/-- Reading a file without NUL gives the framework with its attacks. -/
theorem readFileTgf_text (hnul : ∀ i, Char.ofNat 0 ∉ F.name i)
    (hlength : ∀ i, (F.name i).length ≤ intMax) :
    readFileTgf F.text = some ⟨n, F.start.attackAll F.attacks⟩ := by
  have hread {names : List (List Char)} (hn : names.length = n)
      (hnames : ∀ i : Fin names.length, names.get i = F.name (i.cast hn))
      (hall : tgfArguments (getlines F.text) =
        some (names, getlines (['\n'].intercalate (F.lines.map F.lineText)))) :
      readFileTgf F.text = some ⟨n, F.start.attackAll F.attacks⟩ := by
    subst hn
    have hstart : (ReadAaf.start fun i : Fin names.length => String.ofList (names.get i)) =
        F.start := by
      simp only [hnames]
      rfl
    rw [readFileTgf, hall]
    change (do
      let r ← (getlines (['\n'].intercalate (F.lines.map F.lineText))).foldlM tgfRow
        (ReadAaf.start fun i : Fin names.length => String.ofList (names.get i))
      some (⟨_, r⟩ : Σ n, ReadAaf n)) = _
    rw [hstart, foldlM_tgfRow_lines hnul hlength]
    rfl
  refine hread List.length_ofFn (fun i => ?_) (tgfArguments_text hnul)
  rw [List.get_ofFn]

/-- The first pass counts the arguments that the second pass stores, the names are those of the
file in order, and the lists, counters and bits are those of the listed attacks. -/
structure Describes (F : TgfFile n) (st : TgfState) : Prop where
  count_eq : (tgfCount (getlines F.text)).toInt = n
  number_eq : st.numberOfArguments = n
  names : st.ids2arguments.readAll n = some (List.ofFn F.name)
  lookup : ∀ i : Fin n, st.arguments2ids (F.name i) = some (i : ℕ)
  children : ∀ i : Fin n, st.children.read i =
    some (((F.attacks.filter (·.1 = i)).map fun a => (a.2 : ℕ)).reverse)
  parents : ∀ j : Fin n, st.parents.read j =
    some (((F.attacks.filter (·.2 = j)).map fun a => (a.1 : ℕ)).reverse)
  numberOfAttackers : ∀ j : Fin n, ∃ count, st.numberOfAttackers.read j = some count ∧
    count.toInt = F.attacks.countP (·.2 = j)
  attacks : ∃ a, st.attacks = some a ∧ a.numberOfAttacks.toInt = F.attacks.length ∧
    (∀ j : Fin n, ∃ bit, a.initial.get j = some bit ∧
      (bit ≠ 0#32 ↔ ∀ attack ∈ F.attacks, attack.2 ≠ j)) ∧
    ∀ j : Fin n, ∃ bit, a.loops.get j = some bit ∧ (bit ≠ 0#32 ↔ (j, j) ∈ F.attacks)

variable {mem : TgfMem} {st : TgfState}

theorem describes_of_refines (hnul : ∀ i, Char.ofNat 0 ∉ F.name i) (hn : n ≤ intMax)
    (hattacks : F.attacks.length ≤ intMax) (h : st.Refines (F.start.attackAll F.attacks)) :
    F.Describes st := by
  have hnames : (F.start.attackAll F.attacks).aaf.ids2arguments = F.start.aaf.ids2arguments :=
    ReadAaf.attackAll_names _ _
  have hnumber : (F.start.attackAll F.attacks).aaf.numberOfAttacks = F.attacks.length :=
    (ReadAaf.attackAll_numberOfAttacks _ _).trans (Nat.zero_add _)
  have hattackers (j : Fin n) : (F.start.attackAll F.attacks).aaf.numberOfAttackers j =
      F.attacks.countP (·.2 = j) := by
    rw [AAF.attackers_eq, ReadAaf.attackAll_parents, List.countP_eq_length_filter,
      List.length_append, List.length_reverse, List.length_map]
    rfl
  constructor
  · rw [tgfCount_eq (tgfArguments_text hnul), List.length_ofFn, Int32.toInt_ofNat_of_le hn]
  · exact h.number_eq
  · rw [h.names.readAll, hnames]
    simp [start]
  · intro i
    rw [h.lookup, arguments2ids_name hnames, Option.map_some]
  · intro i
    rw [h.children.read_eq, ReadAaf.attackAll_children, List.map_append, List.map_reverse,
      List.map_map]
    exact congrArg some (List.append_nil _)
  · intro j
    rw [h.parents.read_eq, ReadAaf.attackAll_parents, List.map_append, List.map_reverse,
      List.map_map]
    exact congrArg some (List.append_nil _)
  · intro j
    refine ⟨_, h.numberOfAttackers.read_eq j, ?_⟩
    rw [ReadAaf.toInt_numberOfAttackers, hattackers]
    rw [hattackers]
    exact List.countP_le_length.trans hattacks
  · obtain ⟨a, ha, hcounter, hinitial, hloops⟩ := h.attacks
    refine ⟨a, ha, ?_, fun j => ?_, fun j => ?_⟩
    · rw [hcounter, (ReadAaf.toInt_numberOfAttacks_eq_iff _).2 (hnumber.trans_le hattacks), hnumber]
    · obtain ⟨bit, hbit, hiff⟩ := hinitial.get j
      exact ⟨bit, hbit, hiff.trans (ReadAaf.initial_attackAll _ _ j)⟩
    · obtain ⟨bit, hbit, hiff⟩ := hloops.get j
      exact ⟨bit, hbit, hiff.trans (ReadAaf.loops_attackAll _ _ j)⟩

variable (F) in
theorem newline_notMem_lines {line : List Char}
    (h : line ∈ (List.finRange n).flatMap F.argumentLines ++ F.attackLines) : '\n' ∉ line := by
  simp only [argumentLines, attackLines, List.mem_append, List.mem_flatMap, List.mem_map,
    List.mem_cons, List.not_mem_nil, or_false] at h
  rcases h with ⟨i, -, ⟨space, -, rfl⟩ | rfl⟩ | ⟨space, -, rfl⟩ | rfl | ⟨line, -, rfl⟩
  · exact newline_notMem_space space
  · exact F.newline_notMem_name i
  · exact newline_notMem_space space
  · decide
  · exact F.newline_notMem_lineText line

/-- The arguments end at a `#` line, whatever the names are. -/
theorem exists_tgfArguments_text (F : TgfFile n) :
    ∃ names rest, tgfArguments (getlines F.text) = some (names, rest) := by
  have hhash : ['#'] ∈ (List.finRange n).flatMap F.argumentLines ++ F.attackLines := by
    simp [attackLines]
  obtain ⟨row, hmem, hrow⟩ := exists_row_of_line (fun _ => F.newline_notMem_lines) hhash
    (List.cons_ne_nil _ _)
  apply exists_tgfArguments hmem
  rw [hrow.trim (by decide) (by decide) (by decide) (by decide)]

/-- The reader in memory gives the framework of the file exactly when its arguments and its attacks can
be counted by an `int` and each name, as a C string, fits into the buffer it is copied to. -/
theorem readFile_describes_iff (mem : TgfMem) (F : TgfFile n) :
    (∃ st, TgfState.readFile mem F.text = some st ∧ F.Describes st) ↔
      n ≤ intMax ∧ F.attacks.length ≤ intMax ∧
        ∀ i, (F.name i).length ≤ 8 ∧ Char.ofNat 0 ∉ F.name i := by
  constructor
  · rintro ⟨st, hst, h⟩
    have hn : n ≤ intMax := by
      have hle := Int32.toInt_le_intMax (tgfCount (getlines F.text))
      rwa [h.count_eq, Int.ofNat_le] at hle
    have hattacks : F.attacks.length ≤ intMax := by
      obtain ⟨a, -, hcounter, -⟩ := h.attacks
      have hle := Int32.toInt_le_intMax a.numberOfAttacks
      rwa [hcounter, Int.ofNat_le] at hle
    obtain ⟨names, rest, hnames⟩ := F.exists_tgfArguments_text
    have hnul := nul_notMem_of_mem_tgfArguments hnames fun row => nul_notMem_of_mem_getlines
    have hfits := TgfState.fits_of_arguments rfl (Nat.zero_le _) hnames
      (fun row => nul_notMem_of_mem_getlines) hst
    -- there is room for the arguments that were counted
    have hroom : names.length ≤ n := by
      have hsize := hfits.1
      rwa [TgfState.start, Block.size_malloc, h.count_eq, Int.toNat_natCast, Nat.zero_add] at hsize
    have hcount : names.length = n := by
      have hcounted := h.count_eq
      rwa [tgfCount_eq hnames, Int32.toInt_ofNat_of_le (hroom.trans hn), Int.ofNat_inj] at hcounted
    obtain ⟨st₀, h₀, hrun⟩ := TgfState.readFile_eq mem hnames (hroom.trans hn) hfits.2
    rw [hrun] at hst
    obtain ⟨a, ha, -⟩ := h₀.refines.attacks
    have hkept := TgfState.ids2arguments_run ha hst
    subst hcount
    have hall := h.names
    rw [hkept, h₀.refines.names.readAll] at hall
    have hofFn := List.ofFn_injective (Option.some.inj hall)
    refine ⟨hn, hattacks, fun i => ?_⟩
    have hi := congrFun hofFn i
    rw [ReadAaf.start_names, String.toList_ofList] at hi
    rw [← hi]
    exact ⟨hfits.2 _ (List.get_mem names i), hnul _ (List.get_mem names i)⟩
  · rintro ⟨hn, hattacks, h⟩
    have hnul := fun i => (h i).2
    have hread := readFileTgf_text hnul fun i => (h i).1.trans (by decide)
    have hshort (i : Fin n) :
        ((F.start.attackAll F.attacks).aaf.ids2arguments i).toList.length ≤ sizeofPointer := by
      rw [ReadAaf.attackAll_names]
      change (String.ofList (F.name i)).toList.length ≤ sizeofPointer
      rw [String.toList_ofList]
      exact (h i).1
    obtain ⟨st, hst, href⟩ := TgfState.readFile_refines mem hread hn hshort
    exact ⟨st, hst, describes_of_refines hnul hn hattacks href⟩

end TgfFile

def nineCharacters : TgfFile 1 where
  name _ := ['a', 'b', 'c', 'd', 'e', 'f', 'g', 'h', 'i']
  name_lt _ := by simp
  name_ne_nil _ := by decide
  isspace_name _ := by simp [isspace]
  name_ne_hash _ := by decide
  distinct := Function.injective_of_subsingleton _
  blanks _ := []
  lastBlanks := []
  lines := [.blank ⟨[], nofun⟩]

/-- The NUL of the name is written past the end of its buffer. -/
theorem readFile_nineCharacters : nineCharacters.text = "abcdefghi\n#\n".toList ∧
    ¬ ∃ st, TgfState.readFile zeroMem nineCharacters.text = some st ∧ nineCharacters.Describes st := by
  have htext : nineCharacters.text = "abcdefghi\n#\n".toList := rfl
  have hnone : TgfState.readFile zeroMem nineCharacters.text = none := by
    rw [htext]
    rfl
  refine ⟨htext, ?_⟩
  rintro ⟨st, hst, -⟩
  rw [hnone] at hst
  cases hst

/-- Lines with newlines between them, and maybe one at the end. -/
def written (lines : List (List Char)) (newline : Bool) : List Char :=
  ['\n'].intercalate lines ++ if newline then ['\n'] else []

theorem written_eq {lines : List (List Char)} (hne : lines ≠ []) (newline : Bool) :
    written lines newline = ['\n'].intercalate (lines ++ if newline then [[]] else []) := by
  cases newline with
  | false => simp [written]
  | true =>
    rw [written, if_pos rfl, if_pos rfl]
    induction lines with
    | nil => exact absurd rfl hne
    | cons line lines ih =>
      cases lines with
      | nil => simp
      | cons next lines =>
        rw [List.cons_append, List.cons_append, List.intercalate_cons_cons,
          List.intercalate_cons_cons, List.append_assoc, List.append_assoc, ih (by simp)]
        simp

def attackText (attack : Fin n × Fin n) : List Char :=
  Nat.toDigits 10 (attack.1 + 1) ++ ' ' :: Nat.toDigits 10 (attack.2 + 1)

/-- The arguments `1`, …, `n`, a `#` line, and the attacks. -/
def tgfRendering (attacks : List (Fin n × Fin n)) (newline : Bool) : List Char :=
  written ((List.finRange n).map (fun i : Fin n => Nat.toDigits 10 (i + 1)) ++
    ['#'] :: attacks.map attackText) newline

def i23Rendering (attacks : List (Fin n × Fin n)) (newline : Bool) : List Char :=
  written (("p af ".toList ++ Nat.toDigits 10 n) :: attacks.map attackText) newline

def decimalFile (attacks : List (Fin n × Fin n)) (newline : Bool) : TgfFile n where
  name i := Nat.toDigits 10 (i + 1)
  name_lt _ _ hc := (toNat_of_isDigit (isDigit_of_mem_toDigits hc)).2.trans_lt (by decide)
  name_ne_nil _ := Nat.toDigits_ne_nil
  isspace_name _ _ hc := isspace_eq_false_of_isDigit (isDigit_of_mem_toDigits hc)
  name_ne_hash i h := by
    have hmem : '#' ∈ Nat.toDigits 10 (i + 1) := by simp [h]
    exact notMem_toDigits (by decide) hmem
  distinct i j h := by
    dsimp only at h
    rw [← argNumber_toList, ← argNumber_toList] at h
    exact argNumber_injective (String.toList_inj.1 h)
  blanks _ := []
  lastBlanks := []
  lines := attacks.map (fun a => .attack a.1 a.2) ++ if newline then [.blank ⟨[], nofun⟩] else []

theorem tgfRendering_eq (attacks : List (Fin n × Fin n)) (newline : Bool) :
    tgfRendering attacks newline = (decimalFile attacks newline).text := by
  rw [tgfRendering, written_eq (by simp), TgfFile.text]
  congr 1
  have harguments : (decimalFile attacks newline).argumentLines =
      fun i : Fin n => [Nat.toDigits 10 (i + 1)] := rfl
  rw [harguments, ← List.map_eq_flatMap]
  cases newline <;>
    simp [TgfFile.attackLines, decimalFile, TgfFile.lineText, attackText, Function.comp_def]

theorem decimalFile_attacks (attacks : List (Fin n × Fin n)) (newline : Bool) :
    (decimalFile attacks newline).attacks = attacks := by
  cases newline <;> simp [TgfFile.attacks, decimalFile, TgfLine.attack?, Function.comp_def]

def i23Lines (attacks : List (Fin n × Fin n)) (newline : Bool) : List (I23Line n) :=
  attacks.map (fun a => I23Line.attack a.1 a.2 ⟨[], nofun⟩) ++
    if newline then [I23Line.skipped (.blank ⟨[], nofun⟩)] else []

theorem i23Lines_text (attacks : List (Fin n × Fin n)) (newline : Bool) :
    (i23Lines attacks newline).map I23Line.text =
      attacks.map attackText ++ if newline then [[]] else [] := by
  rw [i23Lines, List.map_append, List.map_map]
  congr 1
  · apply List.map_congr_left
    intro a _
    exact List.append_nil _
  · cases newline <;> rfl

theorem i23Lines_attacks (attacks : List (Fin n × Fin n)) (newline : Bool) :
    (i23Lines attacks newline).filterMap I23Line.attack? = attacks := by
  have hnone : (if newline then [I23Line.skipped (n := n) (.blank ⟨[], nofun⟩)] else []).filterMap
      I23Line.attack? = [] := by
    cases newline <;> rfl
  rw [i23Lines, List.filterMap_append, hnone, List.append_nil, List.filterMap_map]
  exact List.filterMap_some

theorem i23Rendering_eq (attacks : List (Fin n × Fin n)) (newline : Bool) :
    i23Rendering attacks newline = i23File [] n ⟨[], nofun⟩ (i23Lines attacks newline) := by
  have hheader : "p af ".toList ++ Nat.toDigits 10 n = headerText n ⟨[], nofun⟩ :=
    (List.append_nil _).symm
  rw [i23Rendering, written_eq (List.cons_ne_nil _ _), i23File, i23Lines_text, hheader]
  rfl

/-- Below `10^8` arguments all names fit, and both readers build the same framework: the TGF reader
holds in memory what the other one returns. -/
theorem readers_agree (hn : n < 10 ^ 8) (mem : TgfMem) (attacks : List (Fin n × Fin n))
    (newline newline' : Bool) : ∃ (r : ReadAaf n) (st : TgfState),
      readFileI23 (i23Rendering attacks newline) = some ⟨n, r⟩ ∧
      readFileTgf (tgfRendering attacks newline') = some ⟨n, r⟩ ∧
      TgfState.readFile mem (tgfRendering attacks newline') = some st ∧ st.Refines r := by
  have hmax : n ≤ intMax := hn.le.trans (by decide)
  have hi23 := readFileI23_i23File hmax [] ⟨[], nofun⟩ (i23Lines attacks newline)
  rw [← i23Rendering_eq, i23Lines_attacks] at hi23
  have hnul (i : Fin n) : Char.ofNat 0 ∉ (decimalFile attacks newline').name i :=
    notMem_toDigits (by decide)
  have htgf := TgfFile.readFileTgf_text hnul fun i =>
    length_toDigits_le_intMax (i.isLt.trans_le hmax)
  have hstart : (decimalFile attacks newline').start = ReadAaf.start fun i : Fin n => i23Name i := by
    rw [TgfFile.start]
    congr 1
    funext i
    rw [i23Name_eq, Nat.toString_eq_ofList_toDigits]
    rfl
  rw [← tgfRendering_eq, decimalFile_attacks, hstart] at htgf
  obtain ⟨st, hst, href⟩ := TgfState.readFile_refines mem htgf hmax fun i => by
    rw [ReadAaf.attackAll_names, ReadAaf.start_names, i23Name_eq,
      Nat.toString_eq_ofList_toDigits, String.toList_ofList]
    exact (Nat.length_toDigits_le_iff (by decide) (Nat.succ_pos _)).2 (by omega)
  exact ⟨_, st, hi23, htgf, hst, href⟩

def twoAttacks : List (Fin 2 × Fin 2) :=
  [(⟨0, Nat.zero_lt_two⟩, ⟨0, Nat.zero_lt_two⟩), (⟨0, Nat.zero_lt_two⟩, ⟨1, Nat.one_lt_two⟩)]

theorem readers_agree_two : ∃ (r : ReadAaf 2) (st : TgfState),
    readFileI23 (i23Rendering twoAttacks true) = some ⟨2, r⟩ ∧
    readFileTgf (tgfRendering twoAttacks true) = some ⟨2, r⟩ ∧
    TgfState.readFile zeroMem (tgfRendering twoAttacks true) = some st ∧ st.Refines r :=
  readers_agree (by decide) zeroMem twoAttacks true true

end TaasFudge
