import Mathlib
import TaasFudge.Util.BitSet

/-! # Random access sets

A set of numbers below `max`, kept as a bit set, as an array of its elements and
as the positions of the elements in that array. Removal moves the last element
into the freed cell, so the order of the array depends on the history. The three
views agree by construction.
-/

namespace TaasFudge

/-- `elementsArr` holds the first `number_of_elements` cells of the source's array. -/
structure RaSet (max : ℕ) where
  elements : BitSet
  elementsArr : List (Fin max)
  elementsArrInverted : Fin max → ℕ
  length_eq : elements.length = max
  nodup : elementsArr.Nodup
  get_iff : ∀ e : Fin max, elements.get e = true ↔ e ∈ elementsArr
  inverted_eq : ∀ k (h : k < elementsArr.length), elementsArrInverted elementsArr[k] = k

namespace RaSet
variable {max : ℕ}

instance : Membership (Fin max) (RaSet max) := ⟨fun s e => e ∈ s.elementsArr⟩

theorem mem_def {s : RaSet max} {e : Fin max} : e ∈ s ↔ e ∈ s.elementsArr := Iff.rfl

def numberOfElements (s : RaSet max) : ℕ := s.elementsArr.length

def toSet (s : RaSet max) : Set (Fin max) := {e | e ∈ s}

@[simp] theorem mem_toSet {s : RaSet max} {e : Fin max} : e ∈ s.toSet ↔ e ∈ s := Iff.rfl

def initEmpty (max : ℕ) : RaSet max where
  elements := (BitSet.init (fun _ => 0#32) max).unsetAll
  elementsArr := []
  elementsArrInverted _ := 0
  length_eq := rfl
  nodup := List.nodup_nil
  get_iff e := by
    rw [BitSet.get_unsetAll _ (by simp)]
    simp
  inverted_eq k h := absurd h (by simp)

def reset (s : RaSet max) : RaSet max where
  elements := s.elements.unsetAll
  elementsArr := []
  elementsArrInverted := s.elementsArrInverted
  length_eq := s.length_eq
  nodup := List.nodup_nil
  get_iff e := by
    rw [BitSet.get_unsetAll _ (by simp [s.length_eq])]
    simp
  inverted_eq k h := absurd h (by simp)

def contains (s : RaSet max) (e : Fin max) : Bool := s.elements.get e

@[simp] theorem contains_iff {s : RaSet max} {e : Fin max} : s.contains e = true ↔ e ∈ s :=
  s.get_iff e

@[simp] theorem contains_eq_false_iff {s : RaSet max} {e : Fin max} :
    s.contains e = false ↔ e ∉ s := by
  rw [← contains_iff, Bool.not_eq_true]

instance (s : RaSet max) (e : Fin max) : Decidable (e ∈ s) :=
  decidable_of_iff (s.contains e = true) contains_iff

def add (s : RaSet max) (e : Fin max) : RaSet max :=
  if h : s.contains e then s
  else
    have he : e ∉ s.elementsArr := fun hmem => h (contains_iff.2 hmem)
    { elements := s.elements.set e
      elementsArr := s.elementsArr ++ [e]
      elementsArrInverted := Function.update s.elementsArrInverted e s.numberOfElements
      length_eq := s.length_eq
      nodup := by
        rw [List.nodup_append]
        exact ⟨s.nodup, List.nodup_singleton e, fun a ha b hb => by
          rintro rfl
          exact he (List.mem_singleton.1 hb ▸ ha)⟩
      get_iff := by
        intro x
        have hx : (e : ℕ) = x ↔ x = e := by rw [eq_comm, Fin.val_inj]
        simp [s.get_iff, hx]
      inverted_eq := by
        intro k hk
        rcases lt_or_ge k s.elementsArr.length with hlt | hge
        · have hne : s.elementsArr[k] ≠ e := fun heq => he (heq ▸ List.getElem_mem hlt)
          rw [List.getElem_append_left hlt, Function.update_of_ne hne]
          exact s.inverted_eq k hlt
        · have hk' : k = s.elementsArr.length := by simp at hk; omega
          subst hk'
          simp [numberOfElements] }

/-- The live cells after the last one has been moved to position `p`. -/
def moveLast (xs : List (Fin max)) (p : ℕ) : List (Fin max) :=
  match xs.getLast? with
  | none => xs
  | some last => (xs.set p last).dropLast

theorem moveLast_length (xs : List (Fin max)) (p : ℕ) :
    (moveLast xs p).length = xs.length - 1 := by
  unfold moveLast
  rcases h : xs.getLast? with _ | last
  · simp [List.getLast?_eq_none_iff.1 h]
  · simp

theorem getElem_moveLast (xs : List (Fin max)) (p k : ℕ) (hk : k < (moveLast xs p).length) :
    (moveLast xs p)[k] = if k = p
      then xs.get ⟨xs.length - 1, by rw [moveLast_length] at hk; omega⟩
      else xs.get ⟨k, by rw [moveLast_length] at hk; omega⟩ := by
  have hk' := hk
  rw [moveLast_length] at hk'
  have hpos : xs.length - 1 < xs.length := by omega
  have hlast : xs.getLast? = some xs[xs.length - 1] := by
    rw [List.getLast?_eq_getElem?, List.getElem?_eq_getElem]
  have hmove : moveLast xs p = (xs.set p xs[xs.length - 1]).dropLast := by
    rw [moveLast, hlast]
  simp only [hmove, List.getElem_dropLast, List.getElem_set, List.get_eq_getElem, eq_comm]

variable {xs : List (Fin max)} {p : ℕ} {e : Fin max}

theorem mem_moveLast (hxs : xs.Nodup) (hp : p < xs.length) (he : xs[p] = e) (x : Fin max) :
    x ∈ moveLast xs p ↔ x ∈ xs ∧ x ≠ e := by
  have hlen := moveLast_length xs p
  constructor
  · intro hx
    obtain ⟨k, hk, rfl⟩ := List.mem_iff_getElem.1 hx
    rw [getElem_moveLast]
    split_ifs with hkp
    · refine ⟨List.getElem_mem _, fun h => ?_⟩
      have := hxs.getElem_inj_iff.1 (h.trans he.symm)
      omega
    · exact ⟨List.getElem_mem _, fun h => hkp (hxs.getElem_inj_iff.1 (h.trans he.symm))⟩
  · rintro ⟨hx, hne⟩
    obtain ⟨k, hk, rfl⟩ := List.mem_iff_getElem.1 hx
    have hkp : k ≠ p := by rintro rfl; exact hne he
    rcases Nat.lt_or_ge k (xs.length - 1) with hlt | hge
    · have hget := getElem_moveLast xs p k (by omega)
      rw [if_neg hkp] at hget
      exact List.mem_iff_getElem.2 ⟨k, by omega, hget⟩
    · have hk' : k = xs.length - 1 := by omega
      have hget := getElem_moveLast xs p p (by omega)
      rw [if_pos rfl] at hget
      subst hk'
      exact List.mem_iff_getElem.2 ⟨p, by omega, hget⟩

theorem nodup_moveLast (hxs : xs.Nodup) : (moveLast xs p).Nodup := by
  have hlen := moveLast_length xs p
  rw [List.nodup_iff_injective_getElem]
  rintro ⟨i, hi⟩ ⟨j, hj⟩ hij
  simp only [getElem_moveLast] at hij
  rw [Fin.mk.injEq]
  split_ifs at hij with h₁ h₂ h₂ <;> have := hxs.getElem_inj_iff.1 hij <;> omega

/-- The removal branch of `raset__remove`: `p` is the cell of the removed element. -/
def removeAt (s : RaSet max) (e : Fin max) (p : ℕ) (hp : p < s.elementsArr.length)
    (hpe : s.elementsArr[p] = e) : RaSet max where
  elements := s.elements.unset e
  elementsArr := moveLast s.elementsArr p
  elementsArrInverted :=
    Function.update s.elementsArrInverted s.elementsArr[s.elementsArr.length - 1] p
  length_eq := s.length_eq
  nodup := nodup_moveLast s.nodup
  get_iff x := by
    have hx : (e : ℕ) = x ↔ x = e := by rw [eq_comm, Fin.val_inj]
    simp [mem_moveLast s.nodup hp hpe, s.get_iff, hx]
  inverted_eq k hk := by
    have hlen := moveLast_length s.elementsArr p
    rw [getElem_moveLast]
    simp only [List.get_eq_getElem]
    split_ifs with hkp
    · rw [Function.update_self, hkp]
    · rw [Function.update_of_ne, s.inverted_eq]
      intro h
      have := s.nodup.getElem_inj_iff.1 h
      omega

theorem inverted_lt {s : RaSet max} (h : e ∈ s.elementsArr) :
    ∃ hp : s.elementsArrInverted e < s.elementsArr.length,
      s.elementsArr[s.elementsArrInverted e] = e := by
  obtain ⟨k, hk, rfl⟩ := List.mem_iff_getElem.1 h
  have hi := s.inverted_eq k hk
  exact ⟨by omega, by simp only [hi]⟩

def remove (s : RaSet max) (e : Fin max) : RaSet max :=
  if h : s.contains e then
    have hmem : e ∈ s.elementsArr := contains_iff.1 h
    s.removeAt e (s.elementsArrInverted e) (inverted_lt hmem).1 (inverted_lt hmem).2
  else s

variable {s : RaSet max} {x : Fin max}

@[simp] theorem mem_initEmpty : x ∉ initEmpty max := by simp [initEmpty, mem_def]

@[simp] theorem mem_reset : x ∉ s.reset := by simp [reset, mem_def]

@[simp] theorem mem_add : x ∈ s.add e ↔ x ∈ s ∨ x = e := by
  rw [add]
  split_ifs with h
  · have he : e ∈ s := contains_iff.1 h
    refine ⟨Or.inl, ?_⟩
    rintro (hx | rfl)
    · exact hx
    · exact he
  · simp [mem_def]

@[simp] theorem mem_remove : x ∈ s.remove e ↔ x ∈ s ∧ x ≠ e := by
  rw [remove]
  split_ifs with h
  · have hmem : e ∈ s.elementsArr := contains_iff.1 h
    exact mem_moveLast s.nodup (inverted_lt hmem).1 (inverted_lt hmem).2 x
  · have he : e ∉ s := fun he => h (contains_iff.2 he)
    refine ⟨fun hx => ⟨hx, ?_⟩, fun hx => hx.1⟩
    rintro rfl
    exact he hx

theorem remove_of_notMem (h : e ∉ s) : s.remove e = s := dif_neg fun hc => h (contains_iff.1 hc)

theorem numberOfElements_remove (h : e ∈ s) :
    (s.remove e).numberOfElements + 1 = s.numberOfElements := by
  have hpos : 0 < s.elementsArr.length := List.length_pos_of_mem h
  rw [remove, dif_pos (contains_iff.2 h)]
  simp only [numberOfElements, removeAt, moveLast_length]
  omega

theorem numberOfElements_le (s : RaSet max) : s.numberOfElements ≤ max := by
  simpa [numberOfElements] using s.nodup.length_le_card

theorem numberOfElements_eq_ncard (s : RaSet max) : s.numberOfElements = s.toSet.ncard := by
  have hs : s.toSet = (s.elementsArr.toFinset : Set (Fin max)) := by
    ext e
    simp [mem_def]
  rw [hs, Set.ncard_coe_finset, List.toFinset_card_of_nodup s.nodup, numberOfElements]

theorem numberOfElements_lt {s t : RaSet max} (h : s.toSet ⊂ t.toSet) :
    s.numberOfElements < t.numberOfElements := by
  rw [numberOfElements_eq_ncard, numberOfElements_eq_ncard]
  exact Set.ncard_lt_ncard h

theorem room_lt {s t : RaSet max} (h : s.toSet ⊂ t.toSet) :
    max - t.numberOfElements < max - s.numberOfElements := by
  have hlt := numberOfElements_lt h
  have hle := t.numberOfElements_le
  omega

theorem mem_foldl_add {xs : List (Fin max)} : x ∈ xs.foldl add s ↔ x ∈ s ∨ x ∈ xs := by
  induction xs generalizing s with
  | nil => simp
  | cons y ys ih => rw [List.foldl_cons, ih, mem_add, List.mem_cons, or_assoc]

theorem mem_foldl_remove {xs : List (Fin max)} :
    x ∈ xs.foldl remove s ↔ x ∈ s ∧ x ∉ xs := by
  induction xs generalizing s with
  | nil => simp
  | cons y ys ih => rw [List.foldl_cons, ih, mem_remove, List.mem_cons, not_or, and_assoc]

end RaSet

end TaasFudge
