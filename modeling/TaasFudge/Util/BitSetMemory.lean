import Mathlib.Data.Finset.Filter
import Mathlib.Order.Interval.Finset.Nat
import TaasFudge.Program.Memory
import TaasFudge.Util.BitSet

/-! # Bit sets in memory

The functions of the bit sets with their allocated words: an access to a word that is not
allocated has no result. They carry out the operations on positions below the length, whatever
fresh words contain and whatever is stored beyond the length.
-/

namespace TaasFudge

structure RawBitSet where
  data : Block (BitVec 32)
  length : ℕ
  numElements : ℕ

namespace RawBitSet

def init (mem : ℕ → BitVec 32) (length : ℕ) : RawBitSet :=
  let numElements := length / wordBits + 1
  { data := Block.malloc numElements mem, length := length, numElements := numElements }

def clone (bitset1 : RawBitSet) (mem : ℕ → BitVec 32) : Option RawBitSet := do
  let words ← bitset1.data.readAll bitset1.numElements
  let data ← (Block.malloc bitset1.numElements mem).writeAll 0 words
  some { data := data, length := bitset1.length, numElements := bitset1.numElements }

def mask (idx : ℕ) : BitVec 32 := 1#32 <<< (idx % wordBits)

def modifyWord (bitset : RawBitSet) (idx : ℕ) (f : BitVec 32 → BitVec 32) : Option RawBitSet := do
  let word ← bitset.data.read (idx / wordBits)
  let data ← bitset.data.write (idx / wordBits) (f word)
  some { bitset with data := data }

def set (bitset : RawBitSet) (idx : ℕ) : Option RawBitSet :=
  bitset.modifyWord idx fun word => word ||| mask idx

def unset (bitset : RawBitSet) (idx : ℕ) : Option RawBitSet :=
  bitset.modifyWord idx fun word => word &&& ~~~mask idx

def fill (bitset : RawBitSet) (word : BitVec 32) : Option RawBitSet := do
  let data ← bitset.data.writeAll 0 (List.replicate bitset.numElements word)
  some { bitset with data := data }

def setAll (bitset : RawBitSet) : Option RawBitSet := bitset.fill (BitVec.allOnes 32)

def unsetAll (bitset : RawBitSet) : Option RawBitSet := bitset.fill 0#32

def get (bitset : RawBitSet) (idx : ℕ) : Option (BitVec 32) := do
  let word ← bitset.data.read (idx / wordBits)
  some (word &&& mask idx)

/-- `for(; bitset__get(bitset,j) == 0 && j < bound && j < bitset->length; j++);` -/
def scan (bitset : RawBitSet) (bound j : ℕ) : Option ℕ :=
  match bitset.get j with
  | none => none
  | some bit =>
    if bit = 0#32 ∧ j < bound ∧ j < bitset.length then scan bitset bound (j + 1) else some j
termination_by bitset.length - j

/-- `for(; i < bitset->num_elements && bitset->data[i] == 0; i++);` -/
def scanWords (bitset : RawBitSet) (i : ℕ) : Option ℕ :=
  if i < bitset.numElements then
    match bitset.data.read i with
    | none => none
    | some word => if word = 0#32 then scanWords bitset (i + 1) else some i
  else some i
termination_by bitset.numElements - i

/-- The second and third loop of `bitset__next_set_bit`. -/
def nextSetBitAfter (bitset : RawBitSet) (elem : ℕ) : Option (Option ℕ) :=
  if bitset.numElements ≤ elem + 1 then some none
  else do
    let i ← bitset.scanWords (elem + 1)
    if bitset.numElements ≤ i then some none
    else
      let j ← bitset.scan bitset.length (i * wordBits)
      if bitset.length ≤ j then some none else some (some j)

/-- `bitset__next_set_bit`; the inner `none` is -1. -/
def nextSetBit (bitset : RawBitSet) (idx : ℕ) : Option (Option ℕ) := do
  let elem := idx / wordBits
  let word ← bitset.data.read elem
  if word ≠ 0#32 then
    let j ← bitset.scan ((elem + 1) * wordBits) idx
    if bitset.length ≤ j then some none
    else if j < (elem + 1) * wordBits then some (some j)
    else bitset.nextSetBitAfter elem
  else bitset.nextSetBitAfter elem

/-- `bitset__resize`; `mem` is what the words contain that are new. -/
def resize (bitset : RawBitSet) (newLength : ℕ) (value : Bool) (mem : ℕ → BitVec 32) :
    Option RawBitSet :=
  let numElements := newLength / wordBits + 1
  let resized : RawBitSet :=
    { data := bitset.data.realloc numElements mem, length := newLength, numElements := numElements }
  (List.range' bitset.length (newLength - bitset.length)).foldlM
    (fun (b : RawBitSet) i => if value then b.set i else b.unset i) resized

/-- `for(a = next(start); a != -1; a = next(a+1))`, run for a number of rounds. -/
def visitFrom (bitset : RawBitSet) : ℕ → ℕ → Option (List ℕ)
  | 0, _ => none
  | rounds + 1, start => do
    match ← bitset.nextSetBit start with
    | none => some []
    | some a =>
      let rest ← bitset.visitFrom rounds (a + 1)
      some (a :: rest)

/-- All words of the bit set are allocated, and are those of `b`. -/
structure Refines (r : RawBitSet) (b : BitSet) : Prop where
  length_eq : r.length = b.length
  numElements_eq : r.numElements = b.numElements
  size_eq : r.data.size = b.numElements
  read_eq : ∀ i < b.numElements, r.data.read i = some (b.data i)

section Operations
variable {r : RawBitSet} {b : BitSet} {idx : ℕ}

theorem init_refines (mem : ℕ → BitVec 32) (length : ℕ) :
    (init mem length).Refines (BitSet.init mem length) where
  length_eq := rfl
  numElements_eq := rfl
  size_eq := Block.size_malloc _ _
  read_eq _ hi := Block.read_malloc hi

theorem Refines.modifyWord (h : r.Refines b) {f : BitVec 32 → BitVec 32} {b' : BitSet}
    (hidx : idx / wordBits < b.numElements) (hlength : b'.length = b.length)
    (hdata : b'.data = Function.update b.data (idx / wordBits) (f (b.data (idx / wordBits)))) :
    ∃ r', r.modifyWord idx f = some r' ∧ r'.Refines b' := by
  have hnum : b'.numElements = b.numElements := by
    rw [b'.numElements_eq, hlength, ← b.numElements_eq]
  obtain ⟨data, hwrite⟩ := Block.exists_write (h.size_eq ▸ hidx) (f (b.data (idx / wordBits)))
  refine ⟨{ r with data := data }, ?_, ?_⟩
  · rw [RawBitSet.modifyWord, h.read_eq _ hidx]
    exact congrArg (Option.bind · _) hwrite
  · constructor
    · exact h.length_eq.trans hlength.symm
    · exact h.numElements_eq.trans hnum.symm
    · exact (Block.size_of_write hwrite).trans (h.size_eq.trans hnum.symm)
    · intro i hi
      rw [hnum] at hi
      rw [Block.read_of_write hwrite, hdata, h.read_eq i hi]
      by_cases hd : i = idx / wordBits
      · rw [if_pos hd, hd, Function.update_self]
      · rw [if_neg hd, Function.update_of_ne hd]

theorem Refines.set (h : r.Refines b) (hidx : idx / wordBits < b.numElements) :
    ∃ r', r.set idx = some r' ∧ r'.Refines (b.set idx) :=
  h.modifyWord hidx rfl rfl

theorem Refines.unset (h : r.Refines b) (hidx : idx / wordBits < b.numElements) :
    ∃ r', r.unset idx = some r' ∧ r'.Refines (b.unset idx) :=
  h.modifyWord hidx rfl rfl

theorem Refines.get (h : r.Refines b) (hidx : idx / wordBits < b.numElements) :
    ∃ bit, r.get idx = some bit ∧ (bit ≠ 0#32 ↔ b.get idx = true) := by
  refine ⟨b.data (idx / wordBits) &&& mask idx, ?_, ?_⟩
  · rw [RawBitSet.get, h.read_eq _ hidx]
    rfl
  · rw [BitSet.get, decide_eq_true_iff]
    rfl

theorem Refines.fill (h : r.Refines b) {word : BitVec 32} {b' : BitSet}
    (hlength : b'.length = b.length) (hdata : ∀ i < b.numElements, b'.data i = word) :
    ∃ r', r.fill word = some r' ∧ r'.Refines b' := by
  have hnum : b'.numElements = b.numElements := by
    rw [b'.numElements_eq, hlength, ← b.numElements_eq]
  obtain ⟨data, hwrite, hstart, hsize⟩ := Block.startsWith_nil.writeAll (b := r.data)
    (List.replicate r.numElements word) (by
      rw [List.length_nil, List.length_replicate, h.numElements_eq, h.size_eq, Nat.zero_add])
  refine ⟨{ r with data := data }, congrArg (Option.bind · _) hwrite, ?_⟩
  constructor
  · exact h.length_eq.trans hlength.symm
  · exact h.numElements_eq.trans hnum.symm
  · exact hsize.trans (h.size_eq.trans hnum.symm)
  · intro i hi
    rw [hnum] at hi
    rw [hdata i hi, hstart.read (by simpa [h.numElements_eq] using hi)]
    simp

theorem Refines.setAll (h : r.Refines b) : ∃ r', r.setAll = some r' ∧ r'.Refines b.setAll :=
  h.fill rfl fun _ hi => if_pos hi

theorem Refines.unsetAll (h : r.Refines b) : ∃ r', r.unsetAll = some r' ∧ r'.Refines b.unsetAll :=
  h.fill rfl fun _ hi => if_pos hi

/-- A clone has the same words in an allocation of its own. -/
theorem Refines.clone (h : r.Refines b) (mem : ℕ → BitVec 32) :
    ∃ r', r.clone mem = some r' ∧ r'.Refines b := by
  have hsize : r.data.size = r.numElements := h.size_eq.trans h.numElements_eq.symm
  have hread : r.data.readAll r.numElements = some r.data.cells := by
    rw [Block.readAll, if_pos hsize.ge, ← hsize, Block.size, List.take_length]
  obtain ⟨data, hwrite, hstart, hsize'⟩ := Block.startsWith_nil.writeAll
    (b := Block.malloc r.numElements mem) r.data.cells (by
      rw [Block.size_malloc, List.length_nil, Nat.zero_add]
      exact hsize.le)
  rw [Block.size_malloc] at hsize'
  refine ⟨{ data := data, length := r.length, numElements := r.numElements }, ?_, ?_⟩
  · rw [RawBitSet.clone, hread]
    exact congrArg (Option.bind · _) hwrite
  · constructor
    · exact h.length_eq
    · exact h.numElements_eq
    · exact hsize'.trans h.numElements_eq
    · intro i hi
      have hlt : i < r.data.cells.length := by
        change i < r.data.size
        rwa [h.size_eq]
      rw [← h.read_eq i hi, hstart.read (by simpa using hlt)]
      exact (List.getElem?_eq_getElem hlt).symm

end Operations

section Words
variable {r r' : RawBitSet} {idx : ℕ} {f : BitVec 32 → BitVec 32}

theorem size_of_modifyWord (h : r.modifyWord idx f = some r') :
    idx / wordBits < r.data.size ∧ r'.data.size = r.data.size := by
  obtain ⟨word, -, h⟩ := Option.bind_eq_some_iff.1 h
  obtain ⟨data, hwrite, h⟩ := Option.bind_eq_some_iff.1 h
  rw [← Option.some.inj h]
  exact ⟨Block.lt_size_of_write hwrite, Block.size_of_write hwrite⟩

theorem exists_modifyWord (h : idx / wordBits < r.data.size) (f : BitVec 32 → BitVec 32) :
    ∃ r', r.modifyWord idx f = some r' ∧ r'.data.size = r.data.size := by
  have hread : r.data.read (idx / wordBits) = some r.data.cells[idx / wordBits] :=
    List.getElem?_eq_getElem h
  obtain ⟨data, hwrite⟩ := Block.exists_write h (f r.data.cells[idx / wordBits])
  refine ⟨{ r with data := data }, ?_, Block.size_of_write hwrite⟩
  rw [modifyWord, hread]
  exact congrArg (Option.bind · _) hwrite

end Words

section Bits
variable {n : ℕ} {r : RawBitSet} {p : Fin n → Prop} {mem : ℕ → BitVec 32}

/-- The bit set has length `n` and the bits of the numbers with the property. -/
def HasBits (r : RawBitSet) (n : ℕ) (p : Fin n → Prop) : Prop :=
  ∃ b : BitSet, r.Refines b ∧ b.length = n ∧ ∀ i : Fin n, b.get i = true ↔ p i

theorem init_setAll_hasBits (mem : ℕ → BitVec 32) (n : ℕ) :
    ∃ r, (init mem n).setAll = some r ∧ r.HasBits n fun _ => True := by
  obtain ⟨r, hr, h⟩ := (init_refines mem n).setAll
  refine ⟨r, hr, _, h, rfl, fun i => ?_⟩
  rw [BitSet.get_setAll _ (Nat.le_of_lt i.isLt)]
  exact iff_of_true rfl trivial

theorem HasBits.unsetAll (h : r.HasBits n p) :
    ∃ r', r.unsetAll = some r' ∧ r'.HasBits n fun _ => False := by
  obtain ⟨b, hb, hlength, -⟩ := h
  obtain ⟨r', hr', h'⟩ := hb.unsetAll
  refine ⟨r', hr', _, h', hlength, fun i => ?_⟩
  rw [BitSet.get_unsetAll b (i := (i : ℕ)) (by omega)]
  exact iff_of_false Bool.false_ne_true id

theorem init_unsetAll_hasBits (mem : ℕ → BitVec 32) (n : ℕ) :
    ∃ r, (init mem n).unsetAll = some r ∧ r.HasBits n fun _ => False :=
  HasBits.unsetAll (p := fun i => (BitSet.init mem n).get i = true)
    ⟨_, init_refines mem n, rfl, fun _ => Iff.rfl⟩

theorem HasBits.set (h : r.HasBits n p) (i : Fin n) :
    ∃ r', r.set i = some r' ∧ r'.HasBits n fun j => p j ∨ j = i := by
  obtain ⟨b, hb, hlength, hbits⟩ := h
  obtain ⟨r', hr', h'⟩ := hb.set (b.word_lt (i := i) (by omega))
  refine ⟨r', hr', _, h', hlength, fun j => ?_⟩
  rw [BitSet.get_set, Bool.or_eq_true, hbits j, decide_eq_true_iff, Fin.val_inj, eq_comm]

theorem HasBits.unset (h : r.HasBits n p) (i : Fin n) :
    ∃ r', r.unset i = some r' ∧ r'.HasBits n fun j => p j ∧ j ≠ i := by
  obtain ⟨b, hb, hlength, hbits⟩ := h
  obtain ⟨r', hr', h'⟩ := hb.unset (b.word_lt (i := i) (by omega))
  refine ⟨r', hr', _, h', hlength, fun j => ?_⟩
  rw [BitSet.get_unset, Bool.and_eq_true, hbits j, decide_eq_true_iff, ne_eq, Fin.val_inj, eq_comm]

theorem HasBits.get (h : r.HasBits n p) (i : Fin n) :
    ∃ bit, r.get i = some bit ∧ (bit ≠ 0#32 ↔ p i) := by
  obtain ⟨b, hb, hlength, hbits⟩ := h
  obtain ⟨bit, hget, hbit⟩ := hb.get (b.word_lt (i := i) (by omega))
  exact ⟨bit, hget, hbit.trans (hbits i)⟩

theorem HasBits.congr {q : Fin n → Prop} (h : r.HasBits n p) (hpq : ∀ i, p i ↔ q i) :
    r.HasBits n q := by
  obtain ⟨b, hb, hlength, hbits⟩ := h
  exact ⟨b, hb, hlength, fun i => (hbits i).trans (hpq i)⟩

end Bits

section Scanning
variable {r : RawBitSet} {b : BitSet}

/-- The scan reads the bit before it tests the bounds; the last bit it reads is at the length. -/
theorem Refines.scan (h : r.Refines b) (bound fuel j : ℕ) (hj : j ≤ b.length)
    (hfuel : min bound b.length ≤ j + fuel) :
    r.scan bound j = some (b.scan (min bound b.length) fuel j) := by
  induction fuel generalizing j with
  | zero =>
    obtain ⟨bit, hbit, -⟩ := h.get (b.word_lt hj)
    rw [RawBitSet.scan, hbit, BitSet.scan, h.length_eq]
    dsimp only
    rw [if_neg]
    omega
  | succ fuel ih =>
    obtain ⟨bit, hbit, hget⟩ := h.get (b.word_lt hj)
    rw [RawBitSet.scan, hbit, BitSet.scan, h.length_eq]
    dsimp only
    by_cases hstop : b.get j = false ∧ j < min bound b.length
    · have hzero : bit = 0#32 := by
        by_contra hne
        rw [hget.1 hne] at hstop
        exact Bool.false_ne_true hstop.1.symm
      rw [if_pos hstop, if_pos ⟨hzero, by omega, by omega⟩, ih _ (by omega) (by omega)]
    · rw [if_neg hstop, if_neg]
      rintro ⟨hzero, hlt⟩
      apply hstop
      refine ⟨?_, by omega⟩
      rw [Bool.eq_false_iff]
      exact fun htrue => hget.2 htrue hzero

theorem Refines.scanWords (h : r.Refines b) (fuel i : ℕ) (hfuel : b.numElements ≤ i + fuel) :
    r.scanWords i = some (b.scanWords fuel i) := by
  induction fuel generalizing i with
  | zero =>
    rw [RawBitSet.scanWords, BitSet.scanWords, h.numElements_eq, if_neg]
    omega
  | succ fuel ih =>
    rw [RawBitSet.scanWords, BitSet.scanWords, h.numElements_eq]
    by_cases hi : i < b.numElements
    · rw [if_pos hi, h.read_eq i hi]
      dsimp only
      by_cases hword : b.data i = 0#32
      · rw [if_pos hword, if_pos ⟨hi, hword⟩, ih _ (by omega)]
      · rw [if_neg hword, if_neg fun hboth => hword hboth.2]
    · rw [if_neg hi, if_neg fun hboth => hi hboth.1]

theorem Refines.nextSetBitAfter (h : r.Refines b) (elem : ℕ) :
    r.nextSetBitAfter elem = some (b.nextSetBitAfter elem) := by
  rw [RawBitSet.nextSetBitAfter, BitSet.nextSetBitAfter, h.numElements_eq, h.length_eq]
  by_cases helem : b.numElements ≤ elem + 1
  · rw [if_pos helem, if_pos helem]
  rw [if_neg helem, if_neg helem, h.scanWords b.numElements _ (by omega)]
  dsimp only [Option.bind_eq_bind, Option.bind_some]
  by_cases hend : b.numElements ≤ b.scanWords b.numElements (elem + 1)
  · rw [if_pos hend, if_pos hend]
  rw [if_neg hend, if_neg hend]
  -- a word of the bit set starts within its length
  have hstart : b.scanWords b.numElements (elem + 1) * wordBits ≤ b.length := by
    rw [b.numElements_eq, Nat.not_le, Nat.lt_add_one_iff, ← b.numElements_eq] at hend
    exact (Nat.mul_le_mul_right _ hend).trans (Nat.div_mul_le_self _ _)
  have hscan := h.scan b.length b.length _ hstart (by omega)
  rw [Nat.min_self] at hscan
  rw [hscan]
  exact (apply_ite some _ _ _).symm

/-- From every position up to the length no word outside the allocation is read. -/
theorem Refines.nextSetBit (h : r.Refines b) {idx : ℕ} (hidx : idx ≤ b.length) :
    r.nextSetBit idx = some (b.nextSetBit idx) := by
  rw [RawBitSet.nextSetBit, BitSet.nextSetBit]
  dsimp only
  rw [h.read_eq _ (b.word_lt hidx), h.scan _ b.length idx hidx (by omega), h.length_eq,
    h.nextSetBitAfter]
  dsimp only [Option.bind_eq_bind, Option.bind_some]
  rw [apply_ite some, apply_ite some, apply_ite some]

/-- The loop over all set bits ends, with the positions it visited. -/
theorem Refines.visitFrom (h : r.Refines b) {rounds start : ℕ} (hstart : start ≤ b.length)
    (hrounds : b.length < start + rounds) :
    r.visitFrom rounds start = some (b.visitFrom rounds start) := by
  induction rounds generalizing start with
  | zero => omega
  | succ rounds ih =>
    rw [RawBitSet.visitFrom, BitSet.visitFrom, h.nextSetBit hstart]
    dsimp only [Option.bind_eq_bind, Option.bind_some]
    have hnext := b.nextSetBit_isNext start
    cases hr : b.nextSetBit start with
    | none => rfl
    | some a =>
      rw [hr] at hnext
      obtain ⟨hle, hlt, -⟩ := hnext
      dsimp only
      rw [ih (by omega) (by omega)]
      rfl

end Scanning

end RawBitSet

namespace BitSet

def setTo (b : BitSet) (value : Bool) (i : ℕ) : BitSet := if value then b.set i else b.unset i

/-- The words that remain and fresh ones, then the value at each new position. -/
def resize (b : BitSet) (newLength : ℕ) (value : Bool) (mem : ℕ → BitVec 32) : BitSet :=
  let resized := BitSet.init (fun i => if i < b.numElements then b.data i else mem i) newLength
  (List.range' b.length (newLength - b.length)).foldl (fun b i => b.setTo value i) resized

variable {b : BitSet}

@[simp] theorem setTo_length (value : Bool) (i : ℕ) : (b.setTo value i).length = b.length := by
  cases value <;> rfl

@[simp] theorem get_setTo (value : Bool) (i j : ℕ) :
    (b.setTo value i).get j = if i = j then value else b.get j := by
  cases value <;> by_cases h : i = j <;> simp [setTo, h]

theorem foldl_setTo_length (value : Bool) (l : List ℕ) :
    (l.foldl (fun b i => b.setTo value i) b).length = b.length := by
  induction l generalizing b with
  | nil => rfl
  | cons i l ih => rw [List.foldl_cons, ih, setTo_length]

theorem get_foldl_setTo (value : Bool) (l : List ℕ) (j : ℕ) :
    (l.foldl (fun b i => b.setTo value i) b).get j = if j ∈ l then value else b.get j := by
  induction l generalizing b with
  | nil => simp
  | cons i l ih =>
    rw [List.foldl_cons, ih, get_setTo]
    by_cases hj : j ∈ l
    · simp [hj]
    · by_cases hi : i = j <;> simp [hj, hi, eq_comm (a := j)]

theorem resize_length (newLength : ℕ) (value : Bool) (mem : ℕ → BitVec 32) :
    (b.resize newLength value mem).length = newLength := foldl_setTo_length _ _

/-- The old bits below both lengths, and the value at the new positions. -/
theorem get_resize {newLength : ℕ} (value : Bool) (mem : ℕ → BitVec 32) {i : ℕ}
    (hi : i < newLength) :
    (b.resize newLength value mem).get i = if i < b.length then b.get i else value := by
  rw [resize, get_foldl_setTo]
  simp only [List.mem_range'_1]
  by_cases h : i < b.length
  · have hword := b.word_lt (Nat.le_of_lt h)
    rw [if_neg (by omega), if_pos h, get_eq_getLsbD, get_eq_getLsbD]
    simp only [BitSet.init, hword, if_true]
  · rw [if_pos (by omega), if_neg h]

end BitSet

theorem RawBitSet.Refines.resize {r : RawBitSet} {b : BitSet} (h : r.Refines b) (newLength : ℕ)
    (value : Bool) (mem : ℕ → BitVec 32) :
    ∃ r', r.resize newLength value mem = some r' ∧ r'.Refines (b.resize newLength value mem) := by
  rw [RawBitSet.resize, BitSet.resize, h.length_eq]
  have hstart : (RawBitSet.mk (r.data.realloc (newLength / wordBits + 1) mem) newLength
      (newLength / wordBits + 1)).Refines
      (BitSet.init (fun i => if i < b.numElements then b.data i else mem i) newLength) := by
    constructor
    · rfl
    · rfl
    · exact Block.size_realloc _ _ _
    · intro i hi
      dsimp only [BitSet.init] at hi ⊢
      by_cases hold : i < b.numElements
      · rw [if_pos hold, Block.read_realloc (h.size_eq ▸ hold) hi, h.read_eq i hold]
      · rw [if_neg hold, Block.read_realloc_new (h.size_eq ▸ Nat.not_lt.1 hold) hi]
  obtain ⟨r', hr', h', -⟩ := exists_foldlM_of_step_total
    (f := fun (r : RawBitSet) i => if value then r.set i else r.unset i)
    (g := fun (b : BitSet) i => b.setTo value i)
    (R := fun (r : RawBitSet) (b : BitSet) => r.Refines b ∧ b.length = newLength)
    (l := List.range' b.length (newLength - b.length)) (by
      rintro r b i hi ⟨h, hlength⟩
      rw [List.mem_range'_1] at hi
      have hword := b.word_lt (i := i) (by omega)
      cases value with
      | true =>
        obtain ⟨r', hr', h'⟩ := h.set hword
        exact ⟨r', hr', h', hlength⟩
      | false =>
        obtain ⟨r', hr', h'⟩ := h.unset hword
        exact ⟨r', hr', h', hlength⟩) ⟨hstart, rfl⟩
  exact ⟨r', hr', h'⟩

/-- What a bit set stands for: some of the positions below a length. -/
structure Positions where
  length : ℕ
  members : Finset ℕ
  below : ∀ i ∈ members, i < length

/-- A call on a bit set; `mem` is what fresh words contain. -/
inductive BitSetOp where
  | set (idx : ℕ)
  | unset (idx : ℕ)
  | clone (mem : ℕ → BitVec 32)
  | resize (newLength : ℕ) (value : Bool) (mem : ℕ → BitVec 32)

namespace Positions

def start (length : ℕ) (full : Bool) : Positions where
  length := length
  members := (Finset.range length).filter fun _ => full
  below _ hi := Finset.mem_range.1 (Finset.mem_filter.1 hi).1

def apply (p : Positions) : BitSetOp → Option Positions
  | .set idx =>
    if h : idx < p.length then
      some { p with
        members := insert idx p.members
        below := fun i hi => (Finset.mem_insert.1 hi).elim (fun hidx => hidx ▸ h) (p.below i) }
    else none
  | .unset idx =>
    if idx < p.length then
      some { p with
        members := p.members.erase idx
        below := fun i hi => p.below i (Finset.mem_of_mem_erase hi) }
    else none
  | .clone _ => some p
  | .resize newLength value _ =>
    some {
      length := newLength
      members := (Finset.range newLength).filter fun i =>
        if i < p.length then i ∈ p.members else value
      below := fun _ hi => Finset.mem_range.1 (Finset.mem_filter.1 hi).1 }

/-- The least position from `idx` on, if there is one. -/
def IsNext (p : Positions) (idx : ℕ) : Option ℕ → Prop
  | none => ∀ i ∈ p.members, i < idx
  | some a => IsLeast {i | i ∈ p.members ∧ idx ≤ i} a

end Positions

namespace RawBitSet

def run (bitset : RawBitSet) : BitSetOp → Option RawBitSet
  | .set idx => bitset.set idx
  | .unset idx => bitset.unset idx
  | .clone mem => bitset.clone mem
  | .resize newLength value mem => bitset.resize newLength value mem

/-- A fresh bit set, of which all bits are set or unset. -/
def start (mem : ℕ → BitVec 32) (length : ℕ) (full : Bool) : Option RawBitSet :=
  if full then (init mem length).setAll else (init mem length).unsetAll

/-- All words are allocated and the bits below the length are the positions. -/
def Represents (r : RawBitSet) (p : Positions) : Prop :=
  ∃ b : BitSet, r.Refines b ∧ b.length = p.length ∧
    ∀ i < p.length, b.get i = true ↔ i ∈ p.members

variable {r : RawBitSet} {p p' : Positions}

theorem start_represents (mem : ℕ → BitVec 32) (length : ℕ) (full : Bool) :
    ∃ r, start mem length full = some r ∧ r.Represents (Positions.start length full) := by
  cases full with
  | true =>
    obtain ⟨r, hr, h⟩ := (init_refines mem length).setAll
    refine ⟨r, hr, _, h, rfl, fun i (hi : i < length) => ?_⟩
    rw [BitSet.get_setAll _ (Nat.le_of_lt hi)]
    simpa [Positions.start] using hi
  | false =>
    obtain ⟨r, hr, h⟩ := (init_refines mem length).unsetAll
    refine ⟨r, hr, _, h, rfl, fun i (hi : i < length) => ?_⟩
    rw [BitSet.get_unsetAll _ (Nat.le_of_lt hi)]
    simp [Positions.start]

theorem Represents.run (h : r.Represents p) (op : BitSetOp) (hop : p.apply op = some p') :
    ∃ r', r.run op = some r' ∧ r'.Represents p' := by
  obtain ⟨b, hb, hlength, hbits⟩ := h
  cases op with
  | set idx =>
    rw [Positions.apply] at hop
    split_ifs at hop with hidx
    obtain rfl := Option.some.inj hop
    obtain ⟨r', hr', h'⟩ := hb.set (b.word_lt (i := idx) (by omega))
    refine ⟨r', hr', _, h', hlength, fun i hi => ?_⟩
    rw [BitSet.get_set, Bool.or_eq_true, hbits i hi, decide_eq_true_iff, Finset.mem_insert,
      or_comm, eq_comm]
  | unset idx =>
    rw [Positions.apply] at hop
    split_ifs at hop with hidx
    obtain rfl := Option.some.inj hop
    obtain ⟨r', hr', h'⟩ := hb.unset (b.word_lt (i := idx) (by omega))
    refine ⟨r', hr', _, h', hlength, fun i hi => ?_⟩
    rw [BitSet.get_unset, Bool.and_eq_true, hbits i hi, decide_eq_true_iff, Finset.mem_erase,
      and_comm, ne_comm]
  | clone mem =>
    obtain rfl := Option.some.inj hop
    obtain ⟨r', hr', h'⟩ := hb.clone mem
    exact ⟨r', hr', b, h', hlength, hbits⟩
  | resize newLength value mem =>
    obtain rfl := Option.some.inj hop
    obtain ⟨r', hr', h'⟩ := hb.resize newLength value mem
    refine ⟨r', hr', _, h', BitSet.resize_length _ _ _, fun i hi => ?_⟩
    dsimp only at hi ⊢
    rw [BitSet.get_resize value mem hi, Finset.mem_filter, Finset.mem_range, hlength]
    by_cases hold : i < p.length
    · rw [if_pos hold, if_pos hold, hbits i hold]
      exact (and_iff_right hi).symm
    · rw [if_neg hold, if_neg hold]
      exact (and_iff_right hi).symm

theorem Represents.get (h : r.Represents p) {i : ℕ} (hi : i < p.length) :
    ∃ bit, r.get i = some bit ∧ (bit ≠ 0#32 ↔ i ∈ p.members) := by
  obtain ⟨b, hb, hlength, hbits⟩ := h
  obtain ⟨bit, hget, hbit⟩ := hb.get (b.word_lt (i := i) (by omega))
  exact ⟨bit, hget, hbit.trans (hbits i hi)⟩

theorem Represents.nextSetBit (h : r.Represents p) {idx : ℕ} (hidx : idx ≤ p.length) :
    ∃ next, r.nextSetBit idx = some next ∧ p.IsNext idx next := by
  obtain ⟨b, hb, hlength, hbits⟩ := h
  refine ⟨_, hb.nextSetBit (hlength ▸ hidx), ?_⟩
  have hnext := b.nextSetBit_isNext idx
  cases hr : b.nextSetBit idx with
  | none =>
    rw [hr] at hnext
    intro i hi
    by_contra hle
    have hlt := p.below i hi
    have hbit := hnext i (by omega) (by omega)
    rw [(hbits i hlt).2 hi] at hbit
    cases hbit
  | some a =>
    rw [hr] at hnext
    obtain ⟨hle, hlt, hget, hmin⟩ := hnext
    rw [hlength] at hlt
    refine ⟨⟨(hbits a hlt).1 hget, hle⟩, ?_⟩
    rintro i ⟨hi, hidxi⟩
    by_contra hia
    have hbit := hmin i hidxi (by omega)
    rw [(hbits i (p.below i hi)).2 hi] at hbit
    cases hbit

/-- The loop ends after at most one round more than there are positions. -/
theorem Represents.visitFrom (h : r.Represents p) {rounds : ℕ} (hrounds : p.length < rounds) :
    ∃ visited, r.visitFrom rounds 0 = some visited ∧ visited.Pairwise (· < ·) ∧
      ∀ i, i ∈ visited ↔ i ∈ p.members := by
  obtain ⟨b, hb, hlength, hbits⟩ := h
  have hbound : b.length < 0 + rounds := by omega
  obtain ⟨hsorted, hmem⟩ := b.visitFrom_spec rounds 0 hbound
  refine ⟨_, hb.visitFrom (Nat.zero_le _) hbound, hsorted, fun i => ?_⟩
  rw [hmem, hlength]
  constructor
  · rintro ⟨-, hlt, hget⟩
    exact (hbits i hlt).1 hget
  · intro hi
    have hlt := p.below i hi
    exact ⟨Nat.zero_le i, hlt, (hbits i hlt).2 hi⟩

/-- After every sequence of calls at positions below the length all words of the bit set are
allocated, reading gives the positions, the next set bit is the least position that follows, and
the loop over the set bits visits each position once, in increasing order. -/
theorem run_represents_bits (mem : ℕ → BitVec 32) (length : ℕ) (full : Bool) (ops : List BitSetOp)
    {p : Positions} (hops : ops.foldlM Positions.apply (Positions.start length full) = some p) :
    ∃ r, (start mem length full >>= ops.foldlM run) = some r ∧ r.length = p.length ∧
      r.data.size = r.numElements ∧
      (∀ i < p.length, ∃ bit, r.get i = some bit ∧ (bit ≠ 0#32 ↔ i ∈ p.members)) ∧
      (∀ idx ≤ p.length, ∃ next, r.nextSetBit idx = some next ∧ p.IsNext idx next) ∧
      ∀ rounds, p.length < rounds → ∃ visited, r.visitFrom rounds 0 = some visited ∧
        visited.Pairwise (· < ·) ∧ ∀ i, i ∈ visited ↔ i ∈ p.members := by
  obtain ⟨r₀, hr₀, h₀⟩ := start_represents mem length full
  obtain ⟨r, hr, h⟩ := exists_foldlM_of_step (f := run) (R := Represents)
    (fun _ _ _ op _ h hop => h.run op hop) h₀ hops
  refine ⟨r, ?_, ?_, ?_, fun i => h.get, fun idx => h.nextSetBit, fun rounds => h.visitFrom⟩
  · rw [hr₀]
    exact hr
  · obtain ⟨b, hb, hlength, -⟩ := h
    exact hb.length_eq.trans hlength
  · obtain ⟨b, hb, -⟩ := h
    exact hb.size_eq.trans hb.numElements_eq.symm

/-- A position that is new after growing. -/
theorem run_represents_grown :
    ∃ r, (start (fun _ => 0#32) 2 false >>= fun r => List.foldlM run r [BitSetOp.set 0,
        BitSetOp.resize 3 true fun _ => 0#32]) = some r ∧
      ∃ bit, r.get 2 = some bit ∧ bit ≠ 0#32 := by
  obtain ⟨r, hr, -, -, hget, -⟩ := run_represents_bits (fun _ => 0#32) 2 false
    [.set 0, .resize 3 true fun _ => 0#32] rfl
  obtain ⟨bit, hbit, hne⟩ := hget 2 (by decide)
  exact ⟨r, hr, bit, hbit, hne.2 (by decide)⟩

end RawBitSet

end TaasFudge
