import TaasFudge.Taas.Trimming

/-! # What the readers make of lines

A reader takes a file line by line. Which lines are attacks, and which files can be read, is told
from the lines alone.
-/

namespace TaasFudge

variable {n : ℕ}

def isI23Attack (trimmed : List Char) : Bool := trimmed ≠ [] && !"#".toList.isPrefixOf trimmed

def i23AttackRows (file : List Char) : List (List Char) :=
  match readHeader (getlines file) with
  | none => []
  | some (_, rows) => (rows.filter fun row => isI23Attack (trimwhitespace row).1).map fun row =>
      (trimwhitespace row).2

def afterHeader : List PaddedLine → Option (Int32 × List PaddedLine)
  | [] => none
  | p :: lines =>
    if "#".toList.isPrefixOf (trimmed p.line) then afterHeader lines
    else if "p af".toList.isPrefixOf (trimmed p.line) then
      some (atoi ((trimmed p.line).drop 4), lines)
    else afterHeader lines

def i23AttackLines (lines : List PaddedLine) : List PaddedLine :=
  match afterHeader lines with
  | none => []
  | some (_, lines) => lines.filter fun p => isI23Attack (trimmed p.line)

theorem isI23Attack_iff {trimmed : List Char} :
    isI23Attack trimmed = true ↔ trimmed ≠ [] ∧ "#".toList.isPrefixOf trimmed = false := by
  rw [isI23Attack, Bool.and_eq_true, decide_eq_true_eq, Bool.not_eq_true']

def IsNumber (number : ℤ) (str : List Char) : Prop := 1 ≤ (atoi str).toInt ∧ (atoi str).toInt ≤ number

/-- There is a header with a number that is not negative, and each attack is one of two arguments. -/
def I23Readable (lines : List PaddedLine) : Prop :=
  ∃ number rest, afterHeader lines = some (number, rest) ∧ 0 ≤ number.toInt ∧
    ∀ p ∈ rest, isI23Attack (trimmed p.line) = true → ∃ source target,
      splitAtBlank (scanned p.line) = some (source, target) ∧
        IsNumber number.toInt source ∧ IsNumber number.toInt target

section I23
variable {g : PaddedLine → List Char} {lines : List PaddedLine} {p : PaddedLine}

theorem trims_i23Row : Trims (i23Row (n := n)) where
  blank r row h := by
    rw [i23Row]
    dsimp only
    rw [if_pos h]
  congr r row row' h := by rw [i23Row, i23Row, h]

theorem readHeader_lines (hg : Renders g) (lines : List PaddedLine) :
    readHeader (getlines (['\n'].intercalate (lines.map g))) =
      (afterHeader lines).map fun q => (q.1, getlines (['\n'].intercalate (q.2.map g))) := by
  induction lines with
  | nil => rfl
  | cons p lines ih =>
    rw [afterHeader]
    rcases hg.rows_cons p lines with ⟨hlines, -, hblank, hnone⟩ | ⟨row, -, htrim, hrows⟩
    · rw [hnone, hlines, hblank]
      rfl
    · rw [hrows, readHeader, htrim]
      split_ifs
      · exact ih
      · rfl
      · exact ih

theorem readFileI23_lines (hg : Renders g) (lines : List PaddedLine) :
    readFileI23 (['\n'].intercalate (lines.map g)) = (afterHeader lines).bind fun q =>
      if q.1.toInt < 0 then none else
        (q.2.foldlM (fun r p => i23Row r (cString (g p)))
          (ReadAaf.start fun i : Fin q.1.toInt.toNat => i23Name i)).map fun r => ⟨_, r⟩ := by
  rw [readFileI23, readHeader_lines hg]
  cases afterHeader lines with
  | none => rfl
  | some q =>
    rw [Option.map_some, Option.bind_some]
    change (if q.1.toInt < 0 then none else do
      let r ← (getlines (['\n'].intercalate (q.2.map g))).foldlM i23Row
        (ReadAaf.start fun i : Fin q.1.toInt.toNat => i23Name i)
      some (⟨_, r⟩ : Σ n, ReadAaf n)) = _
    split_ifs
    · rfl
    · rw [trims_i23Row.foldlM_getlines hg, Option.map_eq_bind]
      rfl

theorem isI23Attack_of_mem (h : p ∈ i23AttackLines lines) : isI23Attack (trimmed p.line) = true := by
  rw [i23AttackLines] at h
  cases hafter : afterHeader lines with
  | none =>
    rw [hafter] at h
    cases h
  | some q =>
    rw [hafter] at h
    exact (List.mem_filter.1 h).2

theorem isSome_i23Index {str : List Char} : (i23Index n str).isSome = true ↔ IsNumber n str := by
  rw [i23Index, IsNumber]
  split_ifs with h
  · simp only [Option.isSome_some, true_iff]
    omega
  · simp only [Option.isSome_none, Bool.false_eq_true, false_iff]
    omega

theorem isSome_i23Row (r : ReadAaf n) (p : PaddedLine) :
    (i23Row r (cString p.line)).isSome = true ↔ (isI23Attack (trimmed p.line) = true →
      ∃ source target, splitAtBlank (scanned p.line) = some (source, target) ∧
        IsNumber n source ∧ IsNumber n target) := by
  rw [i23Row]
  change (if trimmed p.line = [] then some r
    else if "#".toList.isPrefixOf (trimmed p.line) then some r
    else (splitAtBlank (scanned p.line)).bind fun q => (i23Index n q.1).bind fun idx1 =>
      (i23Index n q.2).bind fun idx2 => some (r.attack idx1 idx2)).isSome = true ↔ _
  rw [isI23Attack_iff]
  split_ifs with hblank hcomment
  · exact iff_of_true rfl fun h => absurd hblank h.1
  · exact iff_of_true rfl fun h => absurd (h.2.symm.trans hcomment) Bool.false_ne_true
  · constructor
    · intro h _
      obtain ⟨r', h⟩ := Option.isSome_iff_exists.1 h
      obtain ⟨⟨source, target⟩, hsplit, h⟩ := Option.bind_eq_some_iff.1 h
      obtain ⟨idx1, h1, h⟩ := Option.bind_eq_some_iff.1 h
      obtain ⟨idx2, h2, -⟩ := Option.bind_eq_some_iff.1 h
      exact ⟨source, target, hsplit, isSome_i23Index.1 (Option.isSome_of_eq_some h1),
        isSome_i23Index.1 (Option.isSome_of_eq_some h2)⟩
    · intro h
      obtain ⟨source, target, hsplit, h1, h2⟩ := h ⟨hblank, Bool.eq_false_iff.2 hcomment⟩
      obtain ⟨idx1, h1⟩ := Option.isSome_iff_exists.1 (isSome_i23Index.2 h1)
      obtain ⟨idx2, h2⟩ := Option.isSome_iff_exists.1 (isSome_i23Index.2 h2)
      simp [hsplit, h1, h2]

theorem readFileI23_isSome_iff :
    (readFileI23 (original lines)).isSome = true ↔ I23Readable lines := by
  rw [original, readFileI23_lines renders_line, I23Readable]
  cases afterHeader lines with
  | none => simp
  | some q =>
    obtain ⟨number, rest⟩ := q
    simp only [Option.bind_some, Option.some.injEq, Prod.mk.injEq]
    split_ifs with hneg
    · refine iff_of_false (by simp) ?_
      rintro ⟨_, _, ⟨rfl, rfl⟩, hnumber, -⟩
      omega
    · have hnumber : (number.toInt.toNat : ℤ) = number.toInt := Int.toNat_of_nonneg (by omega)
      have hrows := isSome_foldlM_iff isSome_i23Row rest
        (ReadAaf.start fun i : Fin number.toInt.toNat => i23Name i)
      rw [hnumber] at hrows
      rw [Option.isSome_map, hrows]
      constructor
      · intro h
        exact ⟨number, rest, ⟨rfl, rfl⟩, by omega, h⟩
      · rintro ⟨_, _, ⟨rfl, rfl⟩, -, h⟩
        exact h

end I23

/-- The rows that are read as attacks after the `#` line, after trimming. -/
def isTgfAttack (trimmed : List Char) : Bool := trimmed ≠ [] && trimmed ≠ ['#']

def tgfAttackRows (file : List Char) : List (List Char) :=
  match tgfArguments (getlines file) with
  | none => []
  | some (_, rows) => (rows.filter fun row => isTgfAttack (trimwhitespace row).1).map fun row =>
      (trimwhitespace row).2

def afterHash : List PaddedLine → Option (List PaddedLine)
  | [] => none
  | p :: lines => if trimmed p.line = ['#'] then some lines else afterHash lines

def tgfAttackLines (lines : List PaddedLine) : List PaddedLine :=
  match afterHash lines with
  | none => []
  | some lines => lines.filter fun p => isTgfAttack (trimmed p.line)

def argumentNames : List PaddedLine → List (List Char)
  | [] => []
  | p :: lines =>
    if trimmed p.line = [] then argumentNames lines
    else if trimmed p.line = ['#'] then []
    else trimmed p.line :: argumentNames lines

theorem isTgfAttack_iff {trimmed : List Char} :
    isTgfAttack trimmed = true ↔ trimmed ≠ [] ∧ trimmed ≠ ['#'] := by
  rw [isTgfAttack, Bool.and_eq_true, decide_eq_true_eq, decide_eq_true_eq]

/-- An attack of two arguments, where the target has a bit in bit sets of this length. -/
def TgfAttackReadable (names : List (List Char)) (length : ℕ) (row : List Char) : Prop :=
  ∃ source target i j, splitAtBlank row = some (source, target) ∧ tableOf names source = some i ∧
    tableOf names target = some j ∧ j / wordBits ≤ length / wordBits

def column (row : List Char) : ℕ := (row.takeWhile (· ≠ ' ')).length

/-- Lines after a `#` line that can be read where the bit sets have this length. Another `#` line
takes `idx`, the column of the last blank, for the number of arguments. -/
def TgfAttacksReadable (names : List (List Char)) (length idx : ℕ) : List PaddedLine → Prop
  | [] => True
  | p :: lines =>
    if trimmed p.line = [] then TgfAttacksReadable names length idx lines
    else if trimmed p.line = ['#'] then TgfAttacksReadable names idx idx lines
    else TgfAttackReadable names length (scanned p.line) ∧
      TgfAttacksReadable names length (column (scanned p.line)) lines

/-- The arguments can be counted, their names fit into their buffers, and the attacks are between
them. -/
def TgfReadable (lines : List PaddedLine) : Prop :=
  (argumentNames lines).length ≤ intMax ∧
    (∀ name ∈ argumentNames lines, name.length ≤ sizeofPointer) ∧
    ∀ rest, afterHash lines = some rest → TgfAttacksReadable (argumentNames lines)
      (argumentNames lines).length (argumentNames lines).length rest

section Tgf
variable {g : PaddedLine → List Char} {mem : TgfMem} {lines : List PaddedLine} {st st' : TgfState}
  {p : PaddedLine}

theorem trims_row (mem : TgfMem) : Trims (TgfState.row mem) where
  blank st row h := by
    rw [TgfState.row]
    dsimp only
    rw [if_pos h]
  congr st row row' h := by rw [TgfState.row, TgfState.row, h]

theorem tgfCount_lines (hg : Renders g) (lines : List PaddedLine) :
    tgfCount (getlines (['\n'].intercalate (lines.map g))) =
      Int32.ofNat (argumentNames lines).length := by
  induction lines with
  | nil => rfl
  | cons p lines ih =>
    rw [argumentNames]
    rcases hg.rows_cons p lines with ⟨hlines, -, hblank, hnone⟩ | ⟨row, -, htrim, hrows⟩
    · rw [hnone, hlines, hblank]
      rfl
    · rw [hrows, tgfCount, htrim, ih]
      split_ifs
      · rfl
      · rfl
      · rw [List.length_cons]
        exact (Int32.ofNat_add _ _).symm

theorem tgfArguments_lines (hg : Renders g) (lines : List PaddedLine) :
    (tgfArguments (getlines (['\n'].intercalate (lines.map g)))).map Prod.snd =
      (afterHash lines).map fun rest => getlines (['\n'].intercalate (rest.map g)) := by
  induction lines with
  | nil => rfl
  | cons p lines ih =>
    rw [afterHash]
    rcases hg.rows_cons p lines with ⟨hlines, -, hblank, hnone⟩ | ⟨row, -, htrim, hrows⟩
    · rw [hnone, hlines, hblank]
      rfl
    · rw [hrows, tgfArguments, htrim]
      dsimp only
      by_cases hblank : trimmed p.line = []
      · rw [if_pos hblank, hblank, if_neg (List.cons_ne_nil _ _).symm]
        exact ih
      · rw [if_neg hblank]
        split_ifs
        · rfl
        · rw [← ih]
          cases tgfArguments (getlines (['\n'].intercalate (lines.map g))) <;> rfl

theorem readFileTgf_lines (hg : Renders g) (lines : List PaddedLine) :
    TgfState.readFile mem (['\n'].intercalate (lines.map g)) =
      lines.foldlM (fun st p => st.row mem (cString (g p)))
        (TgfState.start mem (Int32.ofNat (argumentNames lines).length).toInt.toNat) := by
  rw [TgfState.readFile, tgfCount_lines hg, (trims_row mem).foldlM_getlines hg]

theorem nul_notMem_cString (line : List Char) : Char.ofNat 0 ∉ cString line :=
  nul_notMem_takeWhile line

theorem isTgfAttack_of_mem (h : p ∈ tgfAttackLines lines) : isTgfAttack (trimmed p.line) = true := by
  rw [tgfAttackLines] at h
  cases hafter : afterHash lines with
  | none =>
    rw [hafter] at h
    cases h
  | some rest =>
    rw [hafter] at h
    exact (List.mem_filter.1 h).2

variable {names : List (List Char)} {length idx : ℕ} {a : TgfAttacks} {row : List Char}

theorem tableOf_lt {names : List (List Char)} {name : List Char} {i : ℕ}
    (h : tableOf names name = some i) : i < names.length := by
  induction names using List.reverseRecOn with
  | nil => cases h
  | append_singleton names last ih =>
    rw [tableOf_append] at h
    rw [List.length_append, List.length_singleton]
    by_cases hname : name = last
    · rw [hname, Function.update_self] at h
      cases h
      omega
    · rw [Function.update_of_ne hname] at h
      have hlt := ih h
      omega

structure TgfState.HasRoom (st : TgfState) (names : List (List Char)) : Prop where
  table : st.arguments2ids = tableOf names
  children : names.length ≤ st.children.size
  parents : names.length ≤ st.parents.size
  numberOfAttackers : names.length ≤ st.numberOfAttackers.size

structure TgfAttacks.HasWords (a : TgfAttacks) (length : ℕ) : Prop where
  initial : a.initial.data.size = length / wordBits + 1
  loops : a.loops.data.size = length / wordBits + 1

theorem TgfState.Stored.hasRoom {count : ℕ} (h : st.Stored count names) : st.HasRoom names where
  table := h.table
  children := by simpa using h.children.1.length_le
  parents := by simpa using h.parents.1.length_le
  numberOfAttackers := by simpa using h.numberOfAttackers.1.length_le

theorem TgfState.HasRoom.switchSection (h : st.HasRoom names) (mem : TgfMem) :
    ∃ st' a, st.switchSection mem = some st' ∧ st'.HasRoom names ∧ st'.idx = st.idx ∧
      st'.attacks = some a ∧ a.HasWords st.idx := by
  obtain ⟨initial, hinitial, hi⟩ := (RawBitSet.init_refines mem.initial st.idx).setAll
  obtain ⟨loops, hloops, hl⟩ := (RawBitSet.init_refines mem.loops st.idx).unsetAll
  refine ⟨{ st with
    numberOfArguments := st.idx
    attacks := some { numberOfAttacks := 0, initial := initial, loops := loops } }, _, ?_,
    ⟨h.table, h.children, h.parents, h.numberOfAttackers⟩, rfl, rfl, hi.size_eq, hl.size_eq⟩
  simp [TgfState.switchSection, hinitial, hloops]

theorem exists_prepend {lists : Block (List ℕ)} {i : ℕ} (h : i < lists.size) (data : ℕ) :
    ∃ lists', prepend lists i data = some lists' ∧ lists'.size = lists.size := by
  have hread : lists.read i = some lists.cells[i] := List.getElem?_eq_getElem h
  obtain ⟨lists', hwrite⟩ := Block.exists_write h (data :: lists.cells[i])
  refine ⟨lists', ?_, Block.size_of_write hwrite⟩
  rw [prepend, hread]
  exact hwrite

theorem TgfState.HasRoom.attack (h : st.HasRoom names) (ha : a.HasWords length)
    (hread : TgfAttackReadable names length row) : ∃ st' a', st.attack a row = some st' ∧
      st'.HasRoom names ∧ st'.idx = column row ∧ st'.attacks = some a' ∧ a'.HasWords length := by
  obtain ⟨source, target, i, j, hsplit, hi, hj, hword⟩ := hread
  have hilt := tableOf_lt hi
  have hjlt := tableOf_lt hj
  obtain ⟨children, hchildren, hc⟩ := exists_prepend (hilt.trans_le h.children) j
  obtain ⟨parents, hparents, hp⟩ := exists_prepend (hjlt.trans_le h.parents) i
  have hcount := hjlt.trans_le h.numberOfAttackers
  have hcounter : st.numberOfAttackers.read j = some st.numberOfAttackers.cells[j] :=
    List.getElem?_eq_getElem hcount
  obtain ⟨attackers, hattackers⟩ := Block.exists_write hcount (st.numberOfAttackers.cells[j] + 1)
  have hbits : j / wordBits < a.initial.data.size := by
    rw [ha.initial]
    omega
  obtain ⟨initial, hunset, hinitial⟩ :=
    RawBitSet.exists_modifyWord hbits fun word => word &&& ~~~RawBitSet.mask j
  have hself : ∃ loops, (if i = j then a.loops.set i else some a.loops) = some loops ∧
      loops.data.size = a.loops.data.size := by
    by_cases heq : i = j
    · rw [if_pos heq, heq]
      exact RawBitSet.exists_modifyWord (by rw [ha.loops]; omega) _
    · exact ⟨a.loops, if_neg heq, rfl⟩
  obtain ⟨loops, hset, hloops⟩ := hself
  obtain ⟨rfl, hsource, -⟩ := splitAtBlank_eq_some_iff.1 hsplit
  refine ⟨{ st with
    children := children
    parents := parents
    numberOfAttackers := attackers
    attacks := some { numberOfAttacks := a.numberOfAttacks + 1, initial := initial, loops := loops }
    idx := source.length }, _, ?_, ⟨h.table, ?_, ?_, ?_⟩, ?_, rfl, ?_⟩
  · have hunset : a.initial.unset j = some initial := hunset
    rw [← h.table] at hi hj
    rw [TgfState.attack, hsplit]
    simp only [Option.bind_eq_bind, Option.bind_some, hi, hj, hchildren, hparents, hcounter,
      hattackers, hunset, hset]
  · exact h.children.trans hc.ge
  · exact h.parents.trans hp.ge
  · exact h.numberOfAttackers.trans (Block.size_of_write hattackers).ge
  · rw [column, takeWhile_append_blank hsource]
  · exact ⟨hinitial.trans ha.initial, hloops.trans ha.loops⟩

theorem readable_of_attack (htable : st.arguments2ids = tableOf names) (ha : a.HasWords length)
    (h : st.attack a row = some st') : TgfAttackReadable names length row := by
  simp only [TgfState.attack, Option.bind_eq_bind, Option.bind_eq_some_iff] at h
  obtain ⟨⟨source, target⟩, hsplit, i, hi, j, hj, _, -, _, -, _, -, _, -, initial, hunset, -⟩ := h
  have hword := (RawBitSet.size_of_modifyWord hunset).1
  rw [htable] at hi hj
  rw [ha.initial] at hword
  exact ⟨source, target, i, j, hsplit, hi, hj, by omega⟩

theorem isSome_attacks_iff (lines : List PaddedLine) (h : st.HasRoom names)
    (hattacks : st.attacks = some a) (ha : a.HasWords length) :
    (lines.foldlM (fun (st : TgfState) p => st.row mem (cString p.line)) st).isSome = true ↔
      TgfAttacksReadable names length st.idx lines := by
  induction lines generalizing st a length with
  | nil => exact iff_of_true rfl trivial
  | cons p lines ih =>
    have hrow : st.row mem (cString p.line) = if trimmed p.line = [] then some st
        else if trimmed p.line = ['#'] then st.switchSection mem
        else st.attack a (scanned p.line) := by
      rw [TgfState.row, hattacks]
      rfl
    rw [List.foldlM_cons, TgfAttacksReadable, hrow]
    split_ifs
    · exact ih h hattacks ha
    · obtain ⟨st₁, a₁, hst₁, h₁, hidx, hattacks₁, ha₁⟩ := h.switchSection mem
      rw [hst₁, ← hidx]
      exact ih h₁ hattacks₁ (hidx ▸ ha₁)
    · by_cases hread : TgfAttackReadable names length (scanned p.line)
      · obtain ⟨st₁, a₁, hst₁, h₁, hidx, hattacks₁, ha₁⟩ := h.attack ha hread
        rw [hst₁, ← hidx, and_iff_right hread]
        exact ih h₁ hattacks₁ ha₁
      · refine iff_of_false ?_ fun h => hread h.1
        cases hst₁ : st.attack a (scanned p.line) with
        | none => simp
        | some st₁ => exact absurd (readable_of_attack h.table ha hst₁) hread

theorem isSome_arguments_iff {count : ℕ} (lines : List PaddedLine) (h : st.Stored count names) :
    (lines.foldlM (fun (st : TgfState) p => st.row mem (cString p.line)) st).isSome = true ↔
      names.length + (argumentNames lines).length ≤ count ∧
      (∀ name ∈ argumentNames lines, name.length ≤ sizeofPointer) ∧
      ∀ rest, afterHash lines = some rest → TgfAttacksReadable (names ++ argumentNames lines)
        (names.length + (argumentNames lines).length) (names.length + (argumentNames lines).length)
        rest := by
  have hcount : names.length ≤ count := h.ids2arguments.2 ▸ h.ids2arguments.1.length_le
  induction lines generalizing st names with
  | nil => exact iff_of_true rfl ⟨hcount, List.forall_mem_nil _, nofun⟩
  | cons p lines ih =>
    rw [List.foldlM_cons, argumentNames, afterHash]
    by_cases hblank : trimmed p.line = []
    · have hhash : trimmed p.line ≠ ['#'] := by simp [hblank]
      rw [(trims_row mem).blank st _ hblank, if_pos hblank, if_neg hhash]
      exact ih h hcount
    · rw [if_neg hblank]
      by_cases hhash : trimmed p.line = ['#']
      · rw [if_pos hhash, if_pos hhash]
        obtain ⟨st₁, a₁, hst₁, h₁, hidx, hattacks₁, ha₁⟩ := h.hasRoom.switchSection mem
        have hrow : st.row mem (cString p.line) = some st₁ := by
          rw [← hst₁, TgfState.row]
          exact (if_neg hblank).trans (if_pos hhash)
        rw [← hidx] at ha₁
        rw [hrow]
        change (lines.foldlM (fun (st : TgfState) p => st.row mem (cString p.line)) st₁).isSome = true ↔ _
        rw [isSome_attacks_iff lines h₁ hattacks₁ ha₁, hidx, h.idx_eq]
        simp [hcount]
      · rw [if_neg hhash, if_neg hhash, TgfState.row_argument h.attacks_eq hblank hhash]
        change ((st.argument mem (trimmed p.line)).bind fun st =>
          lines.foldlM (fun (st : TgfState) p => st.row mem (cString p.line)) st).isSome = true ↔ _
        have hnul : Char.ofNat 0 ∉ trimmed p.line :=
          mt mem_of_mem_trimwhitespace (nul_notMem_cString _)
        by_cases hfits : (trimmed p.line).length ≤ sizeofPointer ∧ names.length < count
        · obtain ⟨st₁, hst₁, h₁⟩ := h.argument mem hfits.2 hfits.1 hnul
          have hlength : (names ++ [trimmed p.line]).length ≤ count := by
            rw [List.length_append, List.length_singleton]
            exact hfits.2
          rw [hst₁, Option.bind_some]
          refine (ih h₁ hlength).trans ?_
          rw [List.forall_mem_cons, and_iff_right hfits.1, List.append_assoc, List.length_append,
            List.length_singleton, List.length_cons, List.singleton_append, Nat.add_assoc,
            Nat.add_comm 1]
        · refine iff_of_false ?_ ?_
          · cases hst₁ : st.argument mem (trimmed p.line) with
            | none => simp
            | some st₁ =>
              obtain ⟨hshort, hlt, -⟩ := TgfState.fits_of_argument hst₁
              rw [h.idx_eq, h.ids2arguments.2] at hlt
              exact absurd ⟨hshort, hlt⟩ hfits
          · rintro ⟨hlength, hshort, -⟩
            rw [List.length_cons] at hlength
            exact hfits ⟨hshort _ List.mem_cons_self, by omega⟩

theorem readFile_isSome_iff (mem : TgfMem) :
    (TgfState.readFile mem (original lines)).isSome = true ↔ TgfReadable lines := by
  rw [original, readFileTgf_lines renders_line, isSome_arguments_iff lines
    (TgfState.start_stored mem _), TgfReadable]
  simp only [List.length_nil, Nat.zero_add, List.nil_append]
  refine and_congr ⟨fun h => ?_, fun h => ?_⟩ Iff.rfl
  · have hle := Int32.toInt_le_intMax (Int32.ofNat (argumentNames lines).length)
    omega
  · rw [Int32.toInt_ofNat_of_le h]
    exact le_rfl

end Tgf

end TaasFudge
