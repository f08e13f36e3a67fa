import TaasFudge.Util.BitSetMemory
import TaasFudge.Util.RaSet

/-! # Random access sets in memory

The functions of the random access sets with their bit set and their two arrays. Cells behind the
elements and positions of removed elements are stale; no access leaves its array, and the
operations are those on finite sets.
-/

namespace TaasFudge

namespace RaSet
variable {max : ℕ} {s : RaSet max} {e : Fin max}

theorem add_of_mem (h : e ∈ s) : s.add e = s := dif_pos (contains_iff.2 h)

theorem elementsArr_add (h : e ∉ s) : (s.add e).elementsArr = s.elementsArr ++ [e] := by
  rw [add, dif_neg fun hc => h (contains_iff.1 hc)]

theorem elementsArrInverted_add (h : e ∉ s) : (s.add e).elementsArrInverted =
    Function.update s.elementsArrInverted e s.numberOfElements := by
  rw [add, dif_neg fun hc => h (contains_iff.1 hc)]

theorem numberOfElements_lt_max (h : e ∉ s) : s.numberOfElements < max := by
  have hnodup : (e :: s.elementsArr).Nodup := List.nodup_cons.2 ⟨h, s.nodup⟩
  have hle := hnodup.length_le_card
  rwa [List.length_cons, Fintype.card_fin] at hle

theorem moveLast_eq {xs : List (Fin max)} (h : xs ≠ []) (p : ℕ) :
    moveLast xs p = (xs.set p (xs.getLast h)).dropLast := by
  rw [moveLast, List.getLast?_eq_some_getLast h]

def lastElement (s : RaSet max) (h : e ∈ s) : Fin max := s.elementsArr.getLast (List.ne_nil_of_mem h)

theorem elementsArr_remove (h : e ∈ s) : (s.remove e).elementsArr =
    (s.elementsArr.set (s.elementsArrInverted e) (s.lastElement h)).dropLast := by
  rw [remove, dif_pos (contains_iff.2 h)]
  exact moveLast_eq _ _

theorem elementsArrInverted_remove (h : e ∈ s) : (s.remove e).elementsArrInverted =
    Function.update s.elementsArrInverted (s.lastElement h) (s.elementsArrInverted e) := by
  rw [remove, dif_pos (contains_iff.2 h), removeAt]
  simp only [lastElement, List.getLast_eq_getElem]

end RaSet

/-- What the allocations of a new set happen to contain. -/
structure RaSetMem where
  elements : ℕ → BitVec 32
  elementsArr : ℕ → ℕ
  elementsArrInverted : ℕ → ℕ

structure RawRaSet where
  elements : RawBitSet
  numberOfElements : ℕ
  maxNumberOfElements : ℕ
  elementsArr : Block ℕ
  elementsArrInverted : Block ℕ

namespace RawRaSet

def initEmpty (mem : RaSetMem) (maxNumberOfElements : ℕ) : Option RawRaSet := do
  let elements ← (RawBitSet.init mem.elements maxNumberOfElements).unsetAll
  some {
    elements := elements
    numberOfElements := 0
    maxNumberOfElements := maxNumberOfElements
    elementsArr := Block.malloc maxNumberOfElements mem.elementsArr
    elementsArrInverted := Block.malloc maxNumberOfElements mem.elementsArrInverted }

def reset (set : RawRaSet) : Option RawRaSet := do
  let elements ← set.elements.unsetAll
  some { set with numberOfElements := 0, elements := elements }

def contains (set : RawRaSet) (element : ℕ) : Option Bool := do
  let bit ← set.elements.get element
  some (bit ≠ 0#32)

def add (set : RawRaSet) (element : ℕ) : Option (RawRaSet × Bool) := do
  if ← set.contains element then some (set, false)
  else
    let elements ← set.elements.set element
    let elementsArr ← set.elementsArr.write set.numberOfElements element
    let elementsArrInverted ← set.elementsArrInverted.write element set.numberOfElements
    some ({ set with
      elements := elements
      elementsArr := elementsArr
      elementsArrInverted := elementsArrInverted
      numberOfElements := set.numberOfElements + 1 }, true)

/-- `raset__remove`: each of the two assignments reads what is stored at that time. -/
def remove (set : RawRaSet) (element : ℕ) : Option (RawRaSet × Bool) := do
  if ← set.contains element then
    let elements ← set.elements.unset element
    let numberOfElements := set.numberOfElements - 1
    let last ← set.elementsArr.read numberOfElements
    let elementsArr ← set.elementsArr.write (← set.elementsArrInverted.read element) last
    let moved ← elementsArr.read (← set.elementsArrInverted.read element)
    let elementsArrInverted ← set.elementsArrInverted.write moved
      (← set.elementsArrInverted.read element)
    some ({ set with
      elements := elements
      elementsArr := elementsArr
      elementsArrInverted := elementsArrInverted
      numberOfElements := numberOfElements }, true)
  else some (set, false)

variable {max : ℕ}

/-- The bits are those of the elements, the first cells hold the elements, and each of these has
its position. -/
structure Refines (r : RawRaSet) (s : RaSet max) : Prop where
  bits : r.elements.HasBits max (· ∈ s)
  number_eq : r.numberOfElements = s.numberOfElements
  max_eq : r.maxNumberOfElements = max
  arr_size : r.elementsArr.size = max
  inverted_size : r.elementsArrInverted.size = max
  arr : r.elementsArr.StartsWith (s.elementsArr.map Fin.val)
  inverted : ∀ e ∈ s, r.elementsArrInverted.read e = some (s.elementsArrInverted e)

section Operations
variable {r : RawRaSet} {s : RaSet max} {e : Fin max}

theorem initEmpty_refines (mem : RaSetMem) (max : ℕ) :
    ∃ r, initEmpty mem max = some r ∧ r.Refines (RaSet.initEmpty max) := by
  obtain ⟨elements, helements, hbits⟩ := RawBitSet.init_unsetAll_hasBits mem.elements max
  refine ⟨_, congrArg (Option.bind · _) helements, ?_⟩
  constructor
  · exact hbits.congr fun e => iff_of_false id RaSet.mem_initEmpty
  · rfl
  · rfl
  · exact Block.size_malloc _ _
  · exact Block.size_malloc _ _
  · exact Block.startsWith_nil
  · intro e he
    exact absurd he RaSet.mem_initEmpty

theorem Refines.reset (h : r.Refines s) : ∃ r', r.reset = some r' ∧ r'.Refines s.reset := by
  obtain ⟨elements, helements, hbits⟩ := h.bits.unsetAll
  refine ⟨_, congrArg (Option.bind · _) helements, ?_⟩
  constructor
  · exact hbits.congr fun e => iff_of_false id RaSet.mem_reset
  · rfl
  · exact h.max_eq
  · exact h.arr_size
  · exact h.inverted_size
  · exact Block.startsWith_nil
  · intro e he
    exact absurd he RaSet.mem_reset

theorem Refines.contains (h : r.Refines s) (e : Fin max) :
    r.contains e = some (decide (e ∈ s)) := by
  obtain ⟨bit, hbit, hget⟩ := h.bits.get e
  rw [RawRaSet.contains, hbit]
  exact congrArg some (decide_eq_decide.2 hget)

theorem Refines.add (h : r.Refines s) (e : Fin max) :
    ∃ r', r.add e = some (r', decide (e ∉ s)) ∧ r'.Refines (s.add e) := by
  rw [RawRaSet.add, h.contains e]
  by_cases he : e ∈ s
  · refine ⟨r, by simp [he], ?_⟩
    rwa [RaSet.add_of_mem he]
  · obtain ⟨elements, helements, hbits⟩ := h.bits.set e
    have hroom : (s.elementsArr.map Fin.val).length < r.elementsArr.size := by
      rw [List.length_map, h.arr_size]
      exact RaSet.numberOfElements_lt_max he
    obtain ⟨arr, harr, hstart, hsize⟩ := h.arr.write hroom e
    rw [List.length_map, ← RaSet.numberOfElements, ← h.number_eq] at harr
    have hlt : (e : ℕ) < r.elementsArrInverted.size := by
      rw [h.inverted_size]
      exact e.isLt
    obtain ⟨inv, hinv⟩ := Block.exists_write hlt r.numberOfElements
    refine ⟨{ elements := elements, numberOfElements := r.numberOfElements + 1
              maxNumberOfElements := r.maxNumberOfElements
              elementsArr := arr, elementsArrInverted := inv }, ?_, ?_⟩
    · simp [he, helements, harr, hinv]
    · constructor
      · exact hbits.congr fun x => RaSet.mem_add.symm
      · rw [RaSet.numberOfElements, RaSet.elementsArr_add he, List.length_append, h.number_eq]
        rfl
      · exact h.max_eq
      · exact hsize.trans h.arr_size
      · exact (Block.size_of_write hinv).trans h.inverted_size
      · rwa [RaSet.elementsArr_add he, List.map_append]
      · intro x hx
        rw [Block.read_of_write hinv, RaSet.elementsArrInverted_add he]
        simp only [Fin.val_inj]
        by_cases hxe : x = e
        · rw [if_pos hxe, hxe, Function.update_self, h.number_eq]
        · rw [if_neg hxe, Function.update_of_ne hxe]
          exact h.inverted x ((RaSet.mem_add.1 hx).resolve_right hxe)

/-- The last cell that is in use holds the last element. -/
theorem Refines.read_last (h : r.Refines s) {e : Fin max} (he : e ∈ s) :
    r.elementsArr.read (r.numberOfElements - 1) = some (s.lastElement he : ℕ) := by
  have hnumber := RaSet.numberOfElements_remove he
  have hlt : r.numberOfElements - 1 < (s.elementsArr.map Fin.val).length := by
    rw [List.length_map, h.number_eq, ← RaSet.numberOfElements]
    omega
  rw [h.arr.read hlt]
  simp only [List.getElem_map, h.number_eq, RaSet.numberOfElements, RaSet.lastElement,
    List.getLast_eq_getElem]

/-- The last element takes the cell of the removed one, which may be its own. -/
theorem Refines.remove (h : r.Refines s) (e : Fin max) :
    ∃ r', r.remove e = some (r', decide (e ∈ s)) ∧ r'.Refines (s.remove e) := by
  rw [RawRaSet.remove, h.contains e]
  by_cases he : e ∈ s
  · obtain ⟨elements, helements, hbits⟩ := h.bits.unset e
    have hnumber := RaSet.numberOfElements_remove he
    have hlast := h.read_last he
    have hposition := h.inverted e he
    have hcell : s.elementsArrInverted e < (s.elementsArr.map Fin.val).length := by
      rw [List.length_map]
      exact (RaSet.inverted_lt he).1
    obtain ⟨arr, harr, hstart, hsize⟩ := h.arr.overwrite hcell (s.lastElement he : ℕ)
    have hmoved : arr.read (s.elementsArrInverted e) = some (s.lastElement he : ℕ) := by
      rw [Block.read_of_write harr, if_pos rfl]
    have hlt : (s.lastElement he : ℕ) < r.elementsArrInverted.size := by
      rw [h.inverted_size]
      exact (s.lastElement he).isLt
    obtain ⟨inv, hinv⟩ := Block.exists_write hlt (s.elementsArrInverted e)
    refine ⟨{ elements := elements, numberOfElements := r.numberOfElements - 1
              maxNumberOfElements := r.maxNumberOfElements
              elementsArr := arr, elementsArrInverted := inv }, ?_, ?_⟩
    · simp [he, helements, hlast, hposition, harr, hmoved, hinv]
    · constructor
      · exact hbits.congr fun x => RaSet.mem_remove.symm
      · dsimp only
        rw [h.number_eq]
        omega
      · exact h.max_eq
      · exact hsize.trans h.arr_size
      · exact (Block.size_of_write hinv).trans h.inverted_size
      · rw [RaSet.elementsArr_remove he, List.map_dropLast, List.map_set]
        exact (List.dropLast_prefix _).trans hstart
      · intro x hx
        rw [Block.read_of_write hinv, RaSet.elementsArrInverted_remove he]
        simp only [Fin.val_inj]
        by_cases hxl : x = s.lastElement he
        · rw [if_pos hxl, hxl, Function.update_self]
        · rw [if_neg hxl, Function.update_of_ne hxl]
          exact h.inverted x (RaSet.mem_remove.1 hx).1
  · refine ⟨r, by simp [he], ?_⟩
    rwa [RaSet.remove_of_notMem he]

end Operations

end RawRaSet

/-- The calls on a set, with elements below its maximum. -/
inductive RaSetOp (max : ℕ)
  | initEmpty (mem : RaSetMem)
  | add (element : Fin max)
  | remove (element : Fin max)
  | reset

def RaSetOp.apply {max : ℕ} (S : Finset (Fin max)) : RaSetOp max → Finset (Fin max)
  | initEmpty _ => ∅
  | add e => insert e S
  | remove e => S.erase e
  | reset => ∅

namespace RawRaSet
variable {max : ℕ} {r : RawRaSet} {S : Finset (Fin max)}

def run (set : RawRaSet) : RaSetOp max → Option RawRaSet
  | .initEmpty mem => initEmpty mem max
  | .add e => do
    let (set, _) ← set.add e
    some set
  | .remove e => do
    let (set, _) ← set.remove e
    some set
  | .reset => set.reset

structure Represents (r : RawRaSet) (S : Finset (Fin max)) : Prop where
  max_eq : r.maxNumberOfElements = max
  number_le : r.numberOfElements ≤ max
  arr_size : r.elementsArr.size = max
  inverted_size : r.elementsArrInverted.size = max
  bits : ∀ e : Fin max, ∃ bit, r.elements.get e = some bit ∧ (bit ≠ 0#32 ↔ e ∈ S)
  listed : ∃ l : List (Fin max), r.elementsArr.readAll r.numberOfElements = some (l.map Fin.val) ∧
    l.Nodup ∧ l.toFinset = S
  positions : ∀ e ∈ S, ∃ k < r.numberOfElements, r.elementsArrInverted.read e = some k ∧
    r.elementsArr.read k = some (e : ℕ)

/-- The fields are those of a set with the given elements. -/
def Holds (r : RawRaSet) (S : Finset (Fin max)) : Prop :=
  ∃ s : RaSet max, r.Refines s ∧ ∀ e, e ∈ s ↔ e ∈ S

theorem initEmpty_holds (mem : RaSetMem) (max : ℕ) :
    ∃ r, initEmpty mem max = some r ∧ r.Holds (∅ : Finset (Fin max)) := by
  obtain ⟨r, hr, h⟩ := initEmpty_refines mem max
  exact ⟨r, hr, _, h, fun e => iff_of_false RaSet.mem_initEmpty (Finset.notMem_empty e)⟩

theorem Holds.add (h : r.Holds S) (e : Fin max) :
    ∃ r', r.add e = some (r', decide (insert e S ≠ S)) ∧ r'.Holds (insert e S) := by
  obtain ⟨s, hs, hmem⟩ := h
  obtain ⟨r', hr', h'⟩ := hs.add e
  refine ⟨r', ?_, _, h', fun x => ?_⟩
  · rw [hr', decide_eq_decide.2 ((not_congr (hmem e)).trans Finset.insert_ne_self.symm)]
  · rw [RaSet.mem_add, hmem, Finset.mem_insert, or_comm]

theorem Holds.remove (h : r.Holds S) (e : Fin max) :
    ∃ r', r.remove e = some (r', decide (S.erase e ≠ S)) ∧ r'.Holds (S.erase e) := by
  obtain ⟨s, hs, hmem⟩ := h
  obtain ⟨r', hr', h'⟩ := hs.remove e
  refine ⟨r', ?_, _, h', fun x => ?_⟩
  · rw [hr', decide_eq_decide.2 ((hmem e).trans Finset.erase_ne_self.symm)]
  · rw [RaSet.mem_remove, hmem, Finset.mem_erase, and_comm]

theorem Holds.reset (h : r.Holds S) :
    ∃ r', r.reset = some r' ∧ r'.Holds (∅ : Finset (Fin max)) := by
  obtain ⟨s, hs, -⟩ := h
  obtain ⟨r', hr', h'⟩ := hs.reset
  exact ⟨r', hr', _, h', fun e => iff_of_false RaSet.mem_reset (Finset.notMem_empty e)⟩

theorem Holds.run (h : r.Holds S) (op : RaSetOp max) :
    ∃ r', r.run op = some r' ∧ r'.Holds (op.apply S) := by
  cases op with
  | initEmpty mem => exact initEmpty_holds mem max
  | add e =>
    obtain ⟨r', hr', h'⟩ := h.add e
    exact ⟨r', by rw [RawRaSet.run, hr']; rfl, h'⟩
  | remove e =>
    obtain ⟨r', hr', h'⟩ := h.remove e
    exact ⟨r', by rw [RawRaSet.run, hr']; rfl, h'⟩
  | reset => exact h.reset

theorem Holds.represents (h : r.Holds S) : r.Represents S := by
  obtain ⟨s, hs, hmem⟩ := h
  have hnumber : r.numberOfElements = (s.elementsArr.map Fin.val).length := by
    rw [hs.number_eq, List.length_map, RaSet.numberOfElements]
  constructor
  · exact hs.max_eq
  · rw [hs.number_eq]
    exact s.numberOfElements_le
  · exact hs.arr_size
  · exact hs.inverted_size
  · intro e
    obtain ⟨bit, hget, hbit⟩ := hs.bits.get e
    exact ⟨bit, hget, hbit.trans (hmem e)⟩
  · refine ⟨s.elementsArr, ?_, s.nodup, ?_⟩
    · rw [hnumber]
      exact hs.arr.readAll
    · ext e
      rw [List.mem_toFinset]
      exact hmem e
  · intro e he
    have hes : e ∈ s := (hmem e).2 he
    obtain ⟨hlt, heq⟩ := RaSet.inverted_lt hes
    refine ⟨s.elementsArrInverted e, by rwa [hs.number_eq], hs.inverted e hes, ?_⟩
    rw [hs.arr.read (by rwa [List.length_map]), List.getElem_map, heq]

/-- After every sequence of calls the three views describe the finite set that the calls make
of the empty one, no access has left an array, and adding and removing report whether they change
the set. -/
theorem run_represents_set (mem : RaSetMem) (max : ℕ) (ops : List (RaSetOp max)) :
    ∃ r, (initEmpty mem max >>= ops.foldlM run) = some r ∧
      r.Represents (ops.foldl RaSetOp.apply ∅) ∧
      ∀ e : Fin max,
        (∃ r', r.add e = some (r', decide (insert e (ops.foldl RaSetOp.apply ∅) ≠
          ops.foldl RaSetOp.apply ∅))) ∧
        ∃ r', r.remove e = some (r', decide ((ops.foldl RaSetOp.apply ∅).erase e ≠
          ops.foldl RaSetOp.apply ∅)) := by
  obtain ⟨r₀, hr₀, h₀⟩ := initEmpty_holds mem max
  obtain ⟨r, hr, h⟩ := exists_foldlM_of_step_total (f := run) (R := Holds) (g := RaSetOp.apply)
    (fun _ _ op _ h => h.run op) h₀ (l := ops)
  refine ⟨r, ?_, h.represents, fun e => ⟨?_, ?_⟩⟩
  · rw [hr₀]
    exact hr
  · obtain ⟨r', hr', -⟩ := h.add e
    exact ⟨r', hr'⟩
  · obtain ⟨r', hr', -⟩ := h.remove e
    exact ⟨r', hr'⟩

end RawRaSet

end TaasFudge
