import Mathlib.Algebra.Order.Group.Nat
import Mathlib.Data.List.Nodup
import Mathlib.Tactic.Common

/-! # Bit sets stored in 32-bit words

Word-level operations of the bit sets and their meaning as sets of positions.
Bits of the last word beyond `length` carry no meaning, and may be set.
-/

namespace TaasFudge

/-- WORD_BITS: bits of an unsigned int. -/
abbrev wordBits : ℕ := 32

/-- `data i` is the i-th word; the allocation holds `numElements` words. -/
structure BitSet where
  data : ℕ → BitVec 32
  length : ℕ
  numElements : ℕ
  numElements_eq : numElements = length / wordBits + 1

namespace BitSet

/-- A fresh bit set; `mem` is what the allocated words happen to contain. -/
def init (mem : ℕ → BitVec 32) (length : ℕ) : BitSet where
  data := mem
  length := length
  numElements := length / wordBits + 1
  numElements_eq := rfl

def get (b : BitSet) (idx : ℕ) : Bool :=
  b.data (idx / wordBits) &&& (1#32 <<< (idx % wordBits)) ≠ 0#32

def set (b : BitSet) (idx : ℕ) : BitSet :=
  let word := b.data (idx / wordBits) ||| (1#32 <<< (idx % wordBits))
  { b with data := Function.update b.data (idx / wordBits) word }

def unset (b : BitSet) (idx : ℕ) : BitSet :=
  let word := b.data (idx / wordBits) &&& ~~~(1#32 <<< (idx % wordBits))
  { b with data := Function.update b.data (idx / wordBits) word }

def setAll (b : BitSet) : BitSet :=
  { b with data := fun i => if i < b.numElements then BitVec.allOnes 32 else b.data i }

def unsetAll (b : BitSet) : BitSet :=
  { b with data := fun i => if i < b.numElements then 0#32 else b.data i }

/-- First position from `j` on at which the scan stops: a set bit, or the bound. -/
def scan (b : BitSet) (bound : ℕ) : ℕ → ℕ → ℕ
  | 0, j => j
  | fuel + 1, j => if b.get j = false ∧ j < bound then scan b bound fuel (j + 1) else j

/-- First word from `i` on that is not zero. -/
def scanWords (b : BitSet) : ℕ → ℕ → ℕ
  | 0, i => i
  | fuel + 1, i =>
    if i < b.numElements ∧ b.data i = 0#32 then scanWords b fuel (i + 1) else i

/-- The tail of `nextSetBit`: skip zero words after `elem`, then scan to the end. -/
def nextSetBitAfter (b : BitSet) (elem : ℕ) : Option ℕ :=
  if b.numElements ≤ elem + 1 then none
  else
    let i := b.scanWords b.numElements (elem + 1)
    if b.numElements ≤ i then none
    else
      let j := b.scan b.length b.length (i * wordBits)
      if b.length ≤ j then none else some j

/-- The next set bit from `idx` on; `none` is the source's -1. -/
def nextSetBit (b : BitSet) (idx : ℕ) : Option ℕ :=
  let elem := idx / wordBits
  if b.data elem ≠ 0#32 then
    let j := b.scan (min ((elem + 1) * wordBits) b.length) b.length idx
    if b.length ≤ j then none
    else if j < (elem + 1) * wordBits then some j
    else b.nextSetBitAfter elem
  else b.nextSetBitAfter elem

/-- The positions visited by `for (i = next(from); i != -1; i = next(i+1))`. -/
def visitFrom (b : BitSet) : ℕ → ℕ → List ℕ
  | 0, _ => []
  | fuel + 1, start => match b.nextSetBit start with
    | none => []
    | some i => i :: visitFrom b fuel (i + 1)

def visit (b : BitSet) : List ℕ := b.visitFrom (b.length + 1) 0

theorem get_eq_getLsbD (b : BitSet) (idx : ℕ) :
    b.get idx = (b.data (idx / wordBits)).getLsbD (idx % wordBits) := by
  have hlt : idx % wordBits < 32 := Nat.mod_lt _ (by decide)
  have h : b.data (idx / wordBits) &&& (1#32 <<< (idx % wordBits)) = 0#32 ↔
      (b.data (idx / wordBits)).getLsbD (idx % wordBits) = false := by
    constructor
    · intro h
      have hbit := congrArg (·.getLsbD (idx % wordBits)) h
      simpa [BitVec.getLsbD_shiftLeft, hlt] using hbit
    · intro h
      ext k hk
      by_cases hki : k = idx % wordBits
      · subst hki
        simp [← BitVec.getLsbD_eq_getElem, h]
      · have hone : (1#32 <<< (idx % wordBits)).getLsbD k = false := by
          simp [BitVec.getLsbD_shiftLeft, BitVec.getLsbD_one]
          omega
        simp [← BitVec.getLsbD_eq_getElem, hone]
  rw [get]
  rcases hb : (b.data (idx / wordBits)).getLsbD (idx % wordBits) with _ | _ <;> simp [h, hb]

@[simp] theorem set_length (b : BitSet) (i : ℕ) : (b.set i).length = b.length := rfl
@[simp] theorem unset_length (b : BitSet) (i : ℕ) : (b.unset i).length = b.length := rfl
@[simp] theorem setAll_length (b : BitSet) : b.setAll.length = b.length := rfl
@[simp] theorem unsetAll_length (b : BitSet) : b.unsetAll.length = b.length := rfl
@[simp] theorem init_length (mem : ℕ → BitVec 32) (n : ℕ) : (init mem n).length = n := rfl

/-- Two positions are equal when they agree in word and bit. -/
theorem eq_of_div_mod {i j : ℕ} (hd : i / wordBits = j / wordBits)
    (hm : i % wordBits = j % wordBits) : i = j := by
  rw [← Nat.div_add_mod i wordBits, hd, hm, Nat.div_add_mod]

theorem one_shift_getLsbD (k m : ℕ) (hk : k < 32) :
    (1#32 <<< m).getLsbD k = decide (k = m) := by
  by_cases h : k = m <;> simp [BitVec.getLsbD_shiftLeft, hk, h] <;> omega

@[simp] theorem get_set (b : BitSet) (i j : ℕ) :
    (b.set i).get j = (b.get j || decide (i = j)) := by
  have hlt : j % wordBits < 32 := Nat.mod_lt _ (by decide)
  rw [get_eq_getLsbD, get_eq_getLsbD, set]
  dsimp only
  by_cases hd : j / wordBits = i / wordBits
  · rw [hd, Function.update_self, BitVec.getLsbD_or, one_shift_getLsbD _ _ hlt]
    congr 1
    exact decide_eq_decide.2 ⟨fun h => (eq_of_div_mod hd h).symm, fun h => by rw [h]⟩
  · have hij : i ≠ j := fun h => hd (by rw [h])
    rw [Function.update_of_ne hd]
    simp [hij]

@[simp] theorem get_unset (b : BitSet) (i j : ℕ) :
    (b.unset i).get j = (b.get j && decide (i ≠ j)) := by
  have hlt : j % wordBits < 32 := Nat.mod_lt _ (by decide)
  rw [get_eq_getLsbD, get_eq_getLsbD, unset]
  dsimp only
  by_cases hd : j / wordBits = i / wordBits
  · rw [hd, Function.update_self, BitVec.getLsbD_and, BitVec.getLsbD_not,
      one_shift_getLsbD _ _ hlt]
    simp only [hlt, decide_true, Bool.true_and]
    congr 1
    rw [← decide_not]
    exact decide_eq_decide.2 (not_congr ⟨fun h => (eq_of_div_mod hd h).symm, fun h => by rw [h]⟩)
  · have hij : i ≠ j := fun h => hd (by rw [h])
    rw [Function.update_of_ne hd]
    simp [hij]

theorem word_lt (b : BitSet) {i : ℕ} (h : i ≤ b.length) : i / wordBits < b.numElements := by
  rw [b.numElements_eq]
  have := Nat.div_le_div_right (c := wordBits) h
  omega

theorem get_unsetAll (b : BitSet) {i : ℕ} (h : i ≤ b.length) : b.unsetAll.get i = false := by
  rw [get_eq_getLsbD, unsetAll]
  simp [b.word_lt h]

theorem get_setAll (b : BitSet) {i : ℕ} (h : i ≤ b.length) : b.setAll.get i = true := by
  have hlt : i % wordBits < 32 := Nat.mod_lt _ (by decide)
  rw [get_eq_getLsbD, setAll]
  simp only [b.word_lt h, if_true, BitVec.getLsbD_allOnes, hlt, decide_true]

theorem get_eq_false_of_data (b : BitSet) {i : ℕ} (h : b.data (i / wordBits) = 0#32) :
    b.get i = false := by
  rw [get_eq_getLsbD, h, BitVec.getLsbD_zero]

/-- The scan stops no earlier than it starts, passes only unset bits below the bound, and
stops on a set bit or at the bound. -/
theorem scan_spec (b : BitSet) (bound : ℕ) (fuel j : ℕ) :
    j ≤ b.scan bound fuel j ∧ (∀ i, j ≤ i → i < b.scan bound fuel j → b.get i = false) ∧
      (bound ≤ j + fuel →
        b.get (b.scan bound fuel j) = true ∨ bound ≤ b.scan bound fuel j) := by
  induction fuel generalizing j with
  | zero => exact ⟨le_rfl, fun i h₁ h₂ => absurd h₂ (by simp [scan]; omega), fun h => .inr h⟩
  | succ fuel ih =>
    rw [scan]
    split_ifs with h
    · obtain ⟨h₁, h₂, h₃⟩ := ih (j + 1)
      refine ⟨by omega, fun i hji hi => ?_, fun hb => h₃ (by omega)⟩
      rcases hji.eq_or_lt with rfl | hlt
      · exact h.1
      · exact h₂ i hlt hi
    · refine ⟨le_rfl, fun i h₁ h₂ => absurd h₂ (by omega), fun _ => ?_⟩
      rcases hg : b.get j
      · exact .inr (not_lt.1 fun hlt => h ⟨hg, hlt⟩)
      · exact .inl rfl

/-- The scan of words passes only zero words and stops on a non-zero one or at the end. -/
theorem scanWords_spec (b : BitSet) (fuel i : ℕ) :
    i ≤ b.scanWords fuel i ∧ (∀ k, i ≤ k → k < b.scanWords fuel i → b.data k = 0#32) := by
  induction fuel generalizing i with
  | zero => exact ⟨le_rfl, fun k h₁ h₂ => absurd h₂ (by simp [scanWords]; omega)⟩
  | succ fuel ih =>
    rw [scanWords]
    split_ifs with h
    · obtain ⟨h₁, h₂⟩ := ih (i + 1)
      refine ⟨by omega, fun k hik hk => ?_⟩
      rcases hik.eq_or_lt with rfl | hlt
      · exact h.2
      · exact h₂ k hlt hk
    · exact ⟨le_rfl, fun k h₁ h₂ => absurd h₂ (by omega)⟩

/-- `r` is the least set bit from `idx` on and below the length, if there is one. -/
def IsNext (b : BitSet) (idx : ℕ) : Option ℕ → Prop
  | none => ∀ i, idx ≤ i → i < b.length → b.get i = false
  | some j => idx ≤ j ∧ j < b.length ∧ b.get j = true ∧
      ∀ i, idx ≤ i → i < j → b.get i = false

theorem IsNext.of_le {b : BitSet} {idx start : ℕ} {r : Option ℕ} (h : b.IsNext start r)
    (hle : idx ≤ start) (hskip : ∀ i, idx ≤ i → i < start → i < b.length → b.get i = false) :
    b.IsNext idx r := by
  cases r with
  | none =>
    intro i h₁ h₂
    rcases lt_or_ge i start with hi | hi
    · exact hskip i h₁ hi h₂
    · exact h i hi h₂
  | some j =>
    obtain ⟨hj, hlen, hget, hmin⟩ := h
    refine ⟨hle.trans hj, hlen, hget, fun i h₁ h₂ => ?_⟩
    rcases lt_or_ge i start with hi | hi
    · exact hskip i h₁ hi (h₂.trans hlen)
    · exact hmin i hi h₂

theorem nextSetBitAfter_isNext (b : BitSet) (elem : ℕ) :
    b.IsNext ((elem + 1) * wordBits) (b.nextSetBitAfter elem) := by
  have hend : b.length < b.numElements * wordBits := by
    rw [b.numElements_eq]
    have := Nat.div_add_mod b.length wordBits
    have := Nat.mod_lt b.length (show 0 < wordBits by decide)
    simp only [wordBits] at *
    omega
  unfold nextSetBitAfter
  split_ifs with h
  · intro i h₁ h₂
    have := Nat.mul_le_mul_right wordBits h
    omega
  · obtain ⟨hle, hzero⟩ := b.scanWords_spec b.numElements (elem + 1)
    set w := b.scanWords b.numElements (elem + 1)
    have hskip : ∀ i, (elem + 1) * wordBits ≤ i → i < w * wordBits → i < b.length →
        b.get i = false := by
      intro i h₁ h₂ _
      refine b.get_eq_false_of_data (hzero _ ?_ ?_)
      · exact (Nat.le_div_iff_mul_le (by decide)).2 h₁
      · exact (Nat.div_lt_iff_lt_mul (by decide)).2 h₂
    have hstart := Nat.mul_le_mul_right wordBits hle
    refine IsNext.of_le ?_ hstart hskip
    dsimp only
    split_ifs with hw hj
    · intro i h₁ h₂
      have := Nat.mul_le_mul_right wordBits hw
      omega
    all_goals obtain ⟨s₁, s₂, s₃⟩ := b.scan_spec b.length b.length (w * wordBits)
    · exact fun i h₁ h₂ => s₂ i h₁ (by omega)
    · refine ⟨s₁, not_le.1 hj, (s₃ (by omega)).resolve_right hj, s₂⟩

theorem nextSetBit_isNext (b : BitSet) (idx : ℕ) : b.IsNext idx (b.nextSetBit idx) := by
  have hdiv : idx < (idx / wordBits + 1) * wordBits := by
    have := Nat.div_add_mod idx wordBits
    have := Nat.mod_lt idx (show 0 < wordBits by decide)
    simp only [wordBits] at *
    omega
  unfold nextSetBit
  simp only
  split_ifs with hword hj hend
  all_goals
    obtain ⟨s₁, s₂, s₃⟩ :=
      b.scan_spec (min ((idx / wordBits + 1) * wordBits) b.length) b.length idx
  · exact fun i h₁ h₂ => s₂ i h₁ (by omega)
  · refine ⟨s₁, not_le.1 hj, (s₃ (by omega)).resolve_right (by omega), s₂⟩
  · refine (b.nextSetBitAfter_isNext _).of_le hdiv.le fun i h₁ h₂ _ => s₂ i h₁ (by omega)
  · refine (b.nextSetBitAfter_isNext _).of_le hdiv.le fun i h₁ h₂ _ =>
      b.get_eq_false_of_data ?_
    have hi : i / wordBits = idx / wordBits := by
      apply le_antisymm
      · exact Nat.lt_succ_iff.1 ((Nat.div_lt_iff_lt_mul (by decide)).2 h₂)
      · exact Nat.div_le_div_right h₁
    rw [hi]
    exact not_not.1 hword

/-- The loop visits exactly the set bits below the length, in increasing order. -/
theorem visitFrom_spec (b : BitSet) (fuel start : ℕ) (hfuel : b.length < start + fuel) :
    (b.visitFrom fuel start).Pairwise (· < ·) ∧
      ∀ i, i ∈ b.visitFrom fuel start ↔ start ≤ i ∧ i < b.length ∧ b.get i = true := by
  induction fuel generalizing start with
  | zero =>
    refine ⟨List.Pairwise.nil, fun i => ⟨fun h => by simp [visitFrom] at h, fun h => ?_⟩⟩
    omega
  | succ fuel ih =>
    have hnext := b.nextSetBit_isNext start
    rw [visitFrom]
    rcases hr : b.nextSetBit start with _ | j
    · rw [hr] at hnext
      refine ⟨List.Pairwise.nil, fun i => ⟨fun h => by simp at h, fun h => ?_⟩⟩
      have := hnext i h.1 h.2.1
      simp [this] at h
    · rw [hr] at hnext
      obtain ⟨hj, hlen, hget, hmin⟩ := hnext
      obtain ⟨hsort, hmem⟩ := ih (j + 1) (by omega)
      refine ⟨List.pairwise_cons.2 ⟨fun i hi => ((hmem i).1 hi).1, hsort⟩, fun i => ?_⟩
      rw [List.mem_cons, hmem]
      constructor
      · rintro (rfl | ⟨h₁, h₂, h₃⟩)
        · exact ⟨hj, hlen, hget⟩
        · exact ⟨by omega, h₂, h₃⟩
      · rintro ⟨h₁, h₂, h₃⟩
        rcases lt_trichotomy i j with hlt | rfl | hlt
        · simp [hmin i h₁ hlt] at h₃
        · exact .inl rfl
        · exact .inr ⟨hlt, h₂, h₃⟩

theorem mem_visit (b : BitSet) (i : ℕ) : i ∈ b.visit ↔ i < b.length ∧ b.get i = true := by
  have h := (b.visitFrom_spec (b.length + 1) 0 (by omega)).2 i
  simpa [visit] using h

theorem visit_nodup (b : BitSet) : b.visit.Nodup :=
  (b.visitFrom_spec (b.length + 1) 0 (by omega)).1.imp fun h => h.ne

end BitSet

end TaasFudge
