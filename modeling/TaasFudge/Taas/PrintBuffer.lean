import Mathlib.Algebra.Order.Ring.Nat
import TaasFudge.Program.Memory
import TaasFudge.Util.CInt

/-! # The buffer of a printer

The printers of labelings build a string in a buffer that grows by 100 characters at a time; its
length is an `int`. They write an opening text, entries with separators in between, and a closing
text. They succeed, and the string is read back, exactly when the text fits into the largest such
buffer.
-/

namespace TaasFudge

structure PrintBuffer where
  str : Block Char
  len : ℕ
  sidx : ℕ
  isFirst : Bool

namespace PrintBuffer

def start (mem : ℕ → Char) : PrintBuffer where
  str := Block.malloc 100 mem
  len := 100
  sidx := 0
  isFirst := true

/-- `str[sidx++] = c`. -/
def put (b : PrintBuffer) (c : Char) : Option PrintBuffer := do
  let str ← b.str.write b.sidx c
  some { b with str := str, sidx := b.sidx + 1 }

/-- `strcpy(&str[sidx],name); sidx += strlen(name)`. -/
def copy (b : PrintBuffer) (name : List Char) : Option PrintBuffer := do
  let str ← b.str.strcpy b.sidx name
  some { b with str := str, sidx := b.sidx + name.length }

/-- The buffer grows once if it is too small. An overflow of `len` has no result. -/
def grow (mem : ℕ → Char) (b : PrintBuffer) (needed : ℕ) : Option PrintBuffer :=
  if b.len < b.sidx + needed then
    if b.len + 100 ≤ intMax then
      some { b with str := b.str.realloc (b.len + 100) mem, len := b.len + 100 }
    else none
  else some b

/-- One round of a printer: the name, after the separator unless it is the first, and what follows
the name. -/
def entry (mem : ℕ → Char) (slack : ℕ) (sep : Char) (b : PrintBuffer) (name suffix : List Char) :
    Option PrintBuffer := do
  let b ← b.grow mem (name.length + slack)
  let b ← (if b.isFirst then some b else b.put sep)
  let b ← b.copy name
  let b ← suffix.foldlM put b
  some { b with isFirst := false }

end PrintBuffer

/-- The opening text, an entry for each index that is not skipped, the closing text and the NUL. -/
def printEntries {ι : Type} (mem : ℕ → Char) (opening : List Char) (slack : ℕ) (sep : Char)
    (closing : List Char) (skip : ι → Bool) (name suffix : ι → List Char) (l : List ι) :
    Option (Block Char) := do
  let b ← opening.foldlM PrintBuffer.put (PrintBuffer.start mem)
  let b ← l.foldlM (fun b idx =>
    if skip idx then some b else b.entry mem slack sep (name idx) (suffix idx)) b
  let b ← closing.foldlM PrintBuffer.put b
  b.str.write b.sidx (Char.ofNat 0)

namespace PrintBuffer

/-- The buffer has length `len` and begins with the text, at whose end the index is. -/
structure Filled (b : PrintBuffer) (text : List Char) (len : ℕ) (isFirst : Bool) : Prop where
  filled : b.str.StartsWith text
  sidx_eq : b.sidx = text.length
  size_eq : b.str.size = len
  len_eq : b.len = len
  first_eq : b.isFirst = isFirst

section Writing
variable {b : PrintBuffer} {text name suffix : List Char} {len : ℕ} {isFirst : Bool}

theorem start_filled (mem : ℕ → Char) : (start mem).Filled [] 100 true where
  filled := Block.startsWith_nil
  sidx_eq := rfl
  size_eq := Block.size_malloc _ _
  len_eq := rfl
  first_eq := rfl

theorem Filled.put (h : b.Filled text len isFirst) (hlt : text.length < len) (c : Char) :
    ∃ b', b.put c = some b' ∧ b'.Filled (text ++ [c]) len isFirst := by
  obtain ⟨str, hwrite, hstart, hsize⟩ := h.filled.write (by rwa [h.size_eq]) c
  rw [← h.sidx_eq] at hwrite
  refine ⟨{ b with str := str, sidx := b.sidx + 1 }, by rw [PrintBuffer.put, hwrite]; rfl, ?_⟩
  constructor
  · exact hstart
  · rw [List.length_append, List.length_singleton, ← h.sidx_eq]
  · exact hsize.trans h.size_eq
  · exact h.len_eq
  · exact h.first_eq

theorem Filled.putAll (h : b.Filled text len isFirst) (suffix : List Char)
    (hle : text.length + suffix.length ≤ len) :
    ∃ b', suffix.foldlM PrintBuffer.put b = some b' ∧ b'.Filled (text ++ suffix) len isFirst := by
  induction suffix generalizing b text with
  | nil => exact ⟨b, rfl, by rwa [List.append_nil]⟩
  | cons c suffix ih =>
    rw [List.length_cons] at hle
    obtain ⟨b₁, hput, h₁⟩ := h.put (by omega) c
    obtain ⟨b', hrest, h'⟩ := ih h₁ (by rw [List.length_append, List.length_singleton]; omega)
    rw [List.append_assoc, List.singleton_append] at h'
    exact ⟨b', by rw [List.foldlM_cons, hput]; exact hrest, h'⟩

theorem Filled.copy (h : b.Filled text len isFirst) (name : List Char)
    (hlt : text.length + name.length < len) :
    ∃ b', b.copy name = some b' ∧ b'.Filled (text ++ name) len isFirst := by
  obtain ⟨str, hcopy, hstart, hsize⟩ := h.filled.strcpy name (by rwa [h.size_eq])
  rw [← h.sidx_eq] at hcopy
  refine ⟨{ b with str := str, sidx := b.sidx + name.length },
    by rw [PrintBuffer.copy, hcopy]; rfl, ?_⟩
  constructor
  · exact hstart.of_append
  · rw [List.length_append, ← h.sidx_eq]
  · exact hsize.trans h.size_eq
  · exact h.len_eq
  · exact h.first_eq

def maxLen : ℕ := 2147483600

/-- Between the rounds there is room for the closing text, the NUL and one more character. -/
structure Holds (b : PrintBuffer) (text : List Char) (len : ℕ) (isFirst : Bool) : Prop where
  filled : b.Filled text len isFirst
  room : text.length + 3 ≤ len
  hundreds : 100 ∣ len
  le_max : len ≤ maxLen

/-- Growing once makes room for what is needed, unless the length has reached its maximum. -/
theorem Holds.grow (h : b.Holds text len isFirst) (mem : ℕ → Char) (needed : ℕ)
    (hneeded : needed ≤ 103)
    (hfit : text.length + needed ≤ maxLen) :
    ∃ b' len', b.grow mem needed = some b' ∧ b'.Filled text len' isFirst ∧
      text.length + needed ≤ len' ∧ 100 ∣ len' ∧ len' ≤ maxLen := by
  obtain ⟨hfilled, hroom, ⟨k, hk⟩, hmax⟩ := h
  rw [maxLen] at hfit hmax ⊢
  rw [PrintBuffer.grow, hfilled.sidx_eq, hfilled.len_eq, intMax]
  split_ifs with hsmall hint
  · refine ⟨_, len + 100, rfl, ?_, by omega, ⟨k + 1, by omega⟩, by omega⟩
    constructor
    · exact hfilled.filled.realloc (by omega) mem
    · rfl
    · exact Block.size_realloc _ _ _
    · rfl
    · exact hfilled.first_eq
  · omega
  · exact ⟨b, len, rfl, hfilled, by omega, ⟨k, hk⟩, hmax⟩

theorem Holds.grow_eq_none (h : b.Holds text len isFirst) (mem : ℕ → Char) {needed : ℕ}
    (hneeded : needed ≤ 103)
    (hfit : maxLen < text.length + needed) : b.grow mem needed = none := by
  obtain ⟨hfilled, hroom, ⟨k, hk⟩, hmax⟩ := h
  rw [maxLen] at hfit hmax
  rw [PrintBuffer.grow, hfilled.sidx_eq, hfilled.len_eq, intMax, if_pos (by omega),
    if_neg (by omega)]

def separated (isFirst : Bool) (sep : Char) (item : List Char) : List Char :=
  if isFirst then item else sep :: item

/-- An entry that growing once makes room for, with four more characters than what follows the name
as slack. -/
structure Short (slack : ℕ) (name suffix : List Char) : Prop where
  length_le : name.length + suffix.length ≤ 99
  slack_eq : slack = suffix.length + 4

variable {slack : ℕ}

theorem Holds.entry (h : b.Holds text len isFirst) (mem : ℕ → Char) (sep : Char)
    (hshort : Short slack name suffix)
    (hfit : text.length + (name ++ suffix).length + 4 ≤ maxLen) :
    ∃ b' len', b.entry mem slack sep name suffix = some b' ∧
      b'.Holds (text ++ separated isFirst sep (name ++ suffix)) len' false := by
  obtain ⟨hshort, rfl⟩ := hshort
  rw [List.length_append] at hfit
  obtain ⟨b₁, len', hgrow, h₁, hroom, hhundreds, hmax⟩ := h.grow mem
    (name.length + (suffix.length + 4)) (by omega) (by omega)
  have hsep : ∃ b₂ front, (if b₁.isFirst then some b₁ else b₁.put sep) = some b₂ ∧
      b₂.Filled (text ++ front) len' isFirst ∧ front.length ≤ 1 ∧
        separated isFirst sep (name ++ suffix) = front ++ (name ++ suffix) := by
    rw [h₁.first_eq]
    cases isFirst with
    | true => exact ⟨b₁, [], rfl, by rwa [List.append_nil], Nat.zero_le _, rfl⟩
    | false =>
      obtain ⟨b₂, hput, h₂⟩ := h₁.put (by omega) sep
      exact ⟨b₂, [sep], hput, h₂, Nat.le_refl _, rfl⟩
  obtain ⟨b₂, front, hput, h₂, hfront, htext⟩ := hsep
  obtain ⟨b₃, hcopy, h₃⟩ := h₂.copy name (by rw [List.length_append]; omega)
  obtain ⟨b₄, hsuffix, h₄⟩ := h₃.putAll suffix
    (by rw [List.length_append, List.length_append]; omega)
  refine ⟨{ b₄ with isFirst := false }, len', ?_, ?_⟩
  · rw [PrintBuffer.entry, hgrow]
    simp only [Option.bind_eq_bind, Option.bind_some, hput, hcopy, hsuffix]
  · rw [htext]
    simp only [List.append_assoc] at h₄
    constructor
    · exact ⟨h₄.filled, h₄.sidx_eq, h₄.size_eq, h₄.len_eq, rfl⟩
    · simp only [List.length_append]
      omega
    · exact hhundreds
    · exact hmax

theorem Holds.entry_eq_none (h : b.Holds text len isFirst) (mem : ℕ → Char) (sep : Char)
    (hshort : Short slack name suffix)
    (hfit : maxLen < text.length + (name ++ suffix).length + 4) :
    b.entry mem slack sep name suffix = none := by
  obtain ⟨hshort, rfl⟩ := hshort
  rw [List.length_append] at hfit
  rw [PrintBuffer.entry, h.grow_eq_none mem (by omega) (by omega)]
  rfl

end Writing

section Entries
variable {ι : Type} {mem : ℕ → Char} {slack : ℕ} {name suffix : ι → List Char}
  {b : PrintBuffer} {text : List Char} {len : ℕ}

def total (name suffix : ι → List Char) (l : List ι) : ℕ :=
  (l.map fun i => (name i ++ suffix i).length + 1).sum

@[simp] theorem total_cons (i : ι) (l : List ι) :
    total name suffix (i :: l) = (name i ++ suffix i).length + 1 + total name suffix l := rfl

theorem Holds.entries (h : b.Holds text len false) (mem : ℕ → Char) (sep : Char) (l : List ι)
    (hshort : ∀ i ∈ l, Short slack (name i) (suffix i))
    (hfit : text.length + total name suffix l + 3 ≤ maxLen) :
    ∃ b' len', l.foldlM (fun b i => b.entry mem slack sep (name i) (suffix i)) b = some b' ∧
      b'.Holds (text ++ l.flatMap fun i => sep :: (name i ++ suffix i)) len' false := by
  induction l generalizing b text len with
  | nil => exact ⟨b, len, rfl, by rwa [List.flatMap_nil, List.append_nil]⟩
  | cons i l ih =>
    rw [List.forall_mem_cons] at hshort
    rw [total_cons] at hfit
    obtain ⟨b₁, len₁, hentry, h₁⟩ := h.entry mem sep hshort.1 (by omega)
    obtain ⟨b', len', hrun, h'⟩ := ih h₁ hshort.2 (by
      simp only [separated, Bool.false_eq_true, if_false, List.length_append, List.length_cons]
      rw [List.length_append] at hfit
      omega)
    refine ⟨b', len', by rw [List.foldlM_cons, hentry]; exact hrun, ?_⟩
    rw [List.append_assoc] at h'
    exact h'

theorem Holds.entries_eq_none (h : b.Holds text len false) (mem : ℕ → Char) (sep : Char)
    (l : List ι)
    (hshort : ∀ i ∈ l, Short slack (name i) (suffix i))
    (hfit : maxLen < text.length + total name suffix l + 3) :
    l.foldlM (fun b i => b.entry mem slack sep (name i) (suffix i)) b = none := by
  induction l generalizing b text len with
  | nil =>
    have hroom := h.room
    have hmax := h.le_max
    simp only [total, List.map_nil, List.sum_nil] at hfit
    omega
  | cons i l ih =>
    rw [List.forall_mem_cons] at hshort
    rw [total_cons] at hfit
    rw [List.foldlM_cons]
    by_cases hi : text.length + (name i ++ suffix i).length + 4 ≤ maxLen
    · obtain ⟨b₁, len₁, hentry, h₁⟩ := h.entry mem sep hshort.1 hi
      rw [hentry]
      apply ih h₁ hshort.2
      simp only [separated, Bool.false_eq_true, if_false, List.length_append, List.length_cons]
      rw [List.length_append] at hfit
      omega
    · rw [h.entry_eq_none mem sep hshort.1 (by omega)]
      rfl

variable (sep : Char)

theorem intercalate_eq_flatMap (item : List Char) (items : List (List Char)) :
    [sep].intercalate (item :: items) = item ++ items.flatMap fun x => sep :: x := by
  induction items generalizing item with
  | nil => rw [List.intercalate_singleton, List.flatMap_nil, List.append_nil]
  | cons next items ih =>
    rw [List.intercalate_cons_cons, ih, List.flatMap_cons, List.append_assoc]
    rfl

theorem notMem_intercalate {c : Char} (hsep : c ≠ sep) {items : List (List Char)}
    (h : ∀ item ∈ items, c ∉ item) : c ∉ [sep].intercalate items := by
  cases items with
  | nil => exact List.not_mem_nil
  | cons item items =>
    rw [List.forall_mem_cons] at h
    rw [intercalate_eq_flatMap, List.mem_append, List.mem_flatMap]
    rintro (hitem | ⟨x, hx, hc⟩)
    · exact h.1 hitem
    · rcases List.mem_cons.1 hc with hc | hc
      · exact hsep hc
      · exact h.2 x hx hc

theorem Holds.first_entry (h : b.Holds text len true) (mem : ℕ → Char) (htext : text.length ≤ 2)
    {i : ι} (hshort : Short slack (name i) (suffix i)) :
    ∃ b' len', b.entry mem slack sep (name i) (suffix i) = some b' ∧
      b'.Holds (text ++ (name i ++ suffix i)) len' false := by
  have hlength := hshort.length_le
  apply h.entry mem sep hshort
  rw [List.length_append, maxLen]
  omega

theorem Holds.entries_first (h : b.Holds text len true) (mem : ℕ → Char) (sep : Char)
    (htext : text.length ≤ 2) (l : List ι)
    (hshort : ∀ i ∈ l, Short slack (name i) (suffix i))
    (hfit : text.length + total name suffix l + 2 ≤ maxLen) :
    ∃ b' len' isFirst,
      l.foldlM (fun b i => b.entry mem slack sep (name i) (suffix i)) b = some b' ∧
      b'.Holds (text ++ [sep].intercalate (l.map fun i => name i ++ suffix i)) len' isFirst := by
  cases l with
  | nil => exact ⟨b, len, true, rfl, by rwa [List.map_nil, List.intercalate_nil, List.append_nil]⟩
  | cons i l =>
    rw [List.forall_mem_cons] at hshort
    rw [total_cons] at hfit
    obtain ⟨b₁, len₁, hentry, h₁⟩ := h.first_entry sep mem htext hshort.1
    obtain ⟨b', len', hrun, h'⟩ := h₁.entries mem sep l hshort.2 (by
      rw [List.length_append]
      omega)
    refine ⟨b', len', false, by rw [List.foldlM_cons, hentry]; exact hrun, ?_⟩
    rw [List.map_cons, intercalate_eq_flatMap, List.flatMap_map, ← List.append_assoc]
    exact h'

theorem Holds.entries_first_eq_none (h : b.Holds text len true) (mem : ℕ → Char) (sep : Char)
    (htext : text.length ≤ 2) (l : List ι)
    (hshort : ∀ i ∈ l, Short slack (name i) (suffix i))
    (hfit : maxLen < text.length + total name suffix l + 2) :
    l.foldlM (fun b i => b.entry mem slack sep (name i) (suffix i)) b = none := by
  cases l with
  | nil =>
    simp only [total, List.map_nil, List.sum_nil, maxLen] at hfit
    omega
  | cons i l =>
    rw [List.forall_mem_cons] at hshort
    rw [total_cons] at hfit
    obtain ⟨b₁, len₁, hentry, h₁⟩ := h.first_entry sep mem htext hshort.1
    rw [List.foldlM_cons, hentry]
    apply h₁.entries_eq_none mem sep l hshort.2
    rw [List.length_append]
    omega

variable (mem) {opening closing : List Char} {skip : ι → Bool} {l : List ι}

theorem start_holds (hopening : opening.length ≤ 2) :
    ∃ b, opening.foldlM PrintBuffer.put (start mem) = some b ∧ b.Holds opening 100 true := by
  obtain ⟨b, hb, h⟩ := (start_filled mem).putAll opening (by
    rw [List.length_nil]
    omega)
  refine ⟨b, hb, h, by omega, Nat.dvd_refl 100, ?_⟩
  rw [maxLen]
  omega

theorem foldlM_skip (f : PrintBuffer → ι → Option PrintBuffer) (b : PrintBuffer) :
    l.foldlM (fun b idx => if skip idx then some b else f b idx) b =
      (l.filter fun idx => !skip idx).foldlM f b := by
  rw [List.foldlM_filter]
  congr 1
  funext b idx
  cases skip idx <;> rfl

/-- What is written around the entries is short, entries are short, and there is no NUL in the
text. -/
structure Printable (opening : List Char) (slack : ℕ) (sep : Char) (closing : List Char)
    (name suffix : ι → List Char) (shown : List ι) : Prop where
  opening_le : opening.length ≤ 2
  closing_le : closing.length ≤ 1
  short : ∀ i ∈ shown, Short slack (name i) (suffix i)
  nul_notMem : Char.ofNat 0 ∉ opening ++ sep :: closing
  nul_notMem_entry : ∀ i ∈ shown, Char.ofNat 0 ∉ name i ++ suffix i

variable {sep} {shown : List ι} (h : Printable opening slack sep closing name suffix shown)
include h

omit mem in
theorem Printable.nul_notMem_text : Char.ofNat 0 ∉
    opening ++ [sep].intercalate (shown.map fun i => name i ++ suffix i) ++ closing := by
  have hnul := h.nul_notMem
  rw [List.mem_append, List.mem_cons, not_or, not_or] at hnul
  rw [List.mem_append, List.mem_append, not_or, not_or]
  refine ⟨⟨hnul.1, notMem_intercalate sep hnul.2.1 ?_⟩, hnul.2.2⟩
  rw [List.forall_mem_map]
  exact h.nul_notMem_entry

variable (hshown : (l.filter fun idx => !skip idx) = shown)
include hshown

theorem Printable.fits (hfit : opening.length + total name suffix shown + 2 ≤ maxLen) :
    ∃ str, printEntries mem opening slack sep closing skip name suffix l = some str ∧
      str.str =
        some (opening ++ [sep].intercalate (shown.map fun i => name i ++ suffix i) ++ closing) := by
  obtain ⟨b₀, hb₀, h₀⟩ := start_holds mem h.opening_le
  obtain ⟨b₁, len, isFirst, hrun, h₁⟩ := h₀.entries_first mem sep h.opening_le _ h.short hfit
  have hroom := h₁.room
  have hclosing := h.closing_le
  obtain ⟨b₂, hb₂, h₂⟩ := h₁.filled.putAll closing (by omega)
  obtain ⟨str, hwrite, hstart, -⟩ := h₂.filled.write (by
    rw [h₂.size_eq, List.length_append]
    omega) (Char.ofNat 0)
  rw [← h₂.sidx_eq] at hwrite
  refine ⟨str, ?_, hstart.str h.nul_notMem_text⟩
  rw [printEntries, hb₀]
  simp only [Option.bind_eq_bind, Option.bind_some, foldlM_skip, hshown, hrun, hb₂, hwrite]

/-- A longer text makes the length of the buffer overflow. -/
theorem Printable.eq_none (hfit : maxLen < opening.length + total name suffix shown + 2) :
    printEntries mem opening slack sep closing skip name suffix l = none := by
  obtain ⟨b₀, hb₀, h₀⟩ := start_holds mem h.opening_le
  have hrun := h₀.entries_first_eq_none mem sep h.opening_le _ h.short hfit
  rw [printEntries, hb₀]
  simp only [Option.bind_eq_bind, Option.bind_some, foldlM_skip, hshown, hrun, Option.bind_none]

/-- What a printer returns is read as the whole text. -/
theorem Printable.str {str : Block Char}
    (hprint : printEntries mem opening slack sep closing skip name suffix l = some str) :
    str.str =
      some (opening ++ [sep].intercalate (shown.map fun i => name i ++ suffix i) ++ closing) := by
  rcases Nat.lt_or_ge maxLen (opening.length + total name suffix shown + 2) with hlong | hfit
  · rw [h.eq_none mem hshown hlong] at hprint
    cases hprint
  · obtain ⟨str', hprint', hstr⟩ := h.fits mem hshown hfit
    rw [Option.some.inj (hprint.symm.trans hprint')]
    exact hstr

/-- The text is read off the buffer exactly when it fits. -/
theorem Printable.iff {Q : List Char → Prop}
    (hQ : Q ([sep].intercalate (shown.map fun i => name i ++ suffix i))) :
    (∃ str text, printEntries mem opening slack sep closing skip name suffix l = some str ∧
      str.str = some (opening ++ text ++ closing) ∧ Q text) ↔
        opening.length + total name suffix shown + 2 ≤ maxLen := by
  constructor
  · rintro ⟨str, text, hprint, -⟩
    by_contra hfit
    rw [h.eq_none mem hshown (Nat.lt_of_not_le hfit)] at hprint
    cases hprint
  · intro hfit
    obtain ⟨str, hprint, hstr⟩ := h.fits mem hshown hfit
    exact ⟨str, _, hprint, hstr, hQ⟩

end Entries

end PrintBuffer

end TaasFudge
