import Mathlib.Algebra.Group.Nat.Defs
import Mathlib.Data.Int.Notation
import Mathlib.Data.Nat.Notation
import Mathlib.Tactic.Common

/-! # The type `int`

Counters and numbers of the program are values of a type with 32 bits. An overflow, which the
language leaves undefined, goes round as in two's complement; past `INT_MAX` no value of the type is
the number that was meant.
-/

namespace TaasFudge

/-- `INT_MAX`. -/
def intMax : ℕ := 2147483647

variable {k : ℕ} {x : ℤ}

theorem intMax_eq : intMax = 2 ^ 31 - 1 := rfl

theorem Int32.toInt_ofInt_of_bounds (hlow : -(intMax : ℤ) ≤ x) (hhigh : x ≤ intMax) :
    (Int32.ofInt x).toInt = x := by
  rw [intMax_eq] at hlow hhigh
  apply Int32.toInt_ofInt_of_le
  · omega
  · omega

theorem Int32.toInt_ofNat_of_le (h : k ≤ intMax) : (Int32.ofNat k).toInt = k := by
  rw [intMax_eq] at h
  apply Int32.toInt_ofNat_of_lt
  omega

theorem Int32.toInt_le_intMax (i : Int32) : i.toInt ≤ intMax := Int32.toInt_le i

/-- A count is held exactly if it is not too large. -/
theorem Int32.toInt_ofNat_eq_iff : (Int32.ofNat k).toInt = k ↔ k ≤ intMax := by
  constructor
  · intro h
    have hle := Int32.toInt_le_intMax (Int32.ofNat k)
    omega
  · exact Int32.toInt_ofNat_of_le

theorem Int32.toInt_neg_of_pos {i : Int32} (h : 0 < i.toInt) : (-i).toInt = -i.toInt := by
  have hle := Int32.toInt_le_intMax i
  have heq : -i = Int32.ofInt (-i.toInt) := by rw [Int32.ofInt_neg, Int32.ofInt_toInt]
  rw [heq]
  apply Int32.toInt_ofInt_of_bounds
  · omega
  · rw [intMax_eq] at hle ⊢
    omega

/-- A number is written as a decimal without sign only if it has none. -/
theorem Int.toString_eq_natCast_iff : toString x = toString k ↔ x = k := by
  have hdigits : ∀ m : ℕ, (toString m).toList = Nat.toDigits 10 m := by
    intro m
    rw [Nat.toString_eq_ofList_toDigits, String.toList_ofList]
  constructor
  · intro h
    cases x with
    | ofNat m =>
      have hlist : Nat.toDigits 10 m = Nat.toDigits 10 k := by
        rw [← hdigits, ← hdigits]
        exact congrArg String.toList h
      have hvalue := congrArg (Nat.ofDigitChars 10 · 0) hlist
      simp only [Nat.ofDigitChars_ten_toDigits] at hvalue
      rw [hvalue]
      rfl
    | negSucc m =>
      -- the sign is no digit
      have hsign : '-' ∈ Nat.toDigits 10 k := by
        rw [← hdigits, ← h]
        change '-' ∈ ("-" ++ (m + 1).repr).toList
        rw [String.toList_append]
        exact List.mem_append_left _ (by decide)
      exact absurd (Nat.isDigit_of_mem_toDigits (by decide) (Nat.le_refl 10) hsign) (by decide)
  · rintro rfl
    rfl

end TaasFudge
