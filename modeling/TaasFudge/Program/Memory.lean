import Mathlib.Data.List.Basic
import Mathlib.Data.Option.Basic
import Mathlib.Tactic.Common

/-! # Memory blocks

An allocation has a fixed number of cells. Reading or writing outside of it has no
result. Runs of steps that may have no result are related to runs of an abstract state.
-/

namespace TaasFudge

structure Block (α : Type) where
  cells : List α

namespace Block
variable {α : Type}

def size (b : Block α) : ℕ := b.cells.length

/-- A fresh allocation; `mem` is what its cells happen to contain. -/
def malloc (size : ℕ) (mem : ℕ → α) : Block α := ⟨(List.range size).map mem⟩

def realloc (b : Block α) (size : ℕ) (mem : ℕ → α) : Block α :=
  ⟨(List.range size).map fun i => b.cells[i]?.getD (mem i)⟩

def read (b : Block α) (i : ℕ) : Option α := b.cells[i]?

def write (b : Block α) (i : ℕ) (v : α) : Option (Block α) :=
  if i < b.size then some ⟨b.cells.set i v⟩ else none

def writeAll (b : Block α) (i : ℕ) : List α → Option (Block α)
  | [] => some b
  | v :: vs => do
    let b ← b.write i v
    b.writeAll (i + 1) vs

def readAll (b : Block α) (k : ℕ) : Option (List α) :=
  if k ≤ b.size then some (b.cells.take k) else none

section Cells
variable {b b' : Block α} {i j : ℕ} {v : α} {mem : ℕ → α}

@[simp] theorem size_malloc (k : ℕ) (mem : ℕ → α) : (malloc k mem).size = k := by
  simp [malloc, size]

@[simp] theorem size_realloc (b : Block α) (k : ℕ) (mem : ℕ → α) : (b.realloc k mem).size = k := by
  simp [realloc, size]

theorem read_malloc (h : i < j) : (malloc j mem).read i = some (mem i) := by
  simp [malloc, read, h]

theorem read_realloc (hi : i < b.size) (hj : i < j) : (b.realloc j mem).read i = b.read i := by
  rw [size] at hi
  simp [realloc, read, hi, hj]

theorem read_realloc_new (hi : b.size ≤ i) (hj : i < j) :
    (b.realloc j mem).read i = some (mem i) := by
  rw [size] at hi
  simp [realloc, read, hi, hj]

theorem exists_write (h : i < b.size) (v : α) : ∃ b', b.write i v = some b' :=
  ⟨_, if_pos h⟩

theorem cells_of_write (h : b.write i v = some b') : b'.cells = b.cells.set i v := by
  rw [write] at h
  split_ifs at h
  rw [← Option.some.inj h]

theorem lt_size_of_write (h : b.write i v = some b') : i < b.size := by
  rw [write] at h
  split_ifs at h with hi
  exact hi

theorem size_of_write (h : b.write i v = some b') : b'.size = b.size := by
  rw [size, cells_of_write h, List.length_set, size]

/-- A cell that was written is read back, the others stay as they are. -/
theorem read_of_write (h : b.write i v = some b') (j : ℕ) :
    b'.read j = if j = i then some v else b.read j := by
  rw [read, cells_of_write h, List.getElem?_set]
  by_cases hj : j = i
  · subst hj
    have hlt : j < b.cells.length := lt_size_of_write h
    simp [hlt]
  · simp [hj, Ne.symm hj, read]

end Cells

section Filled
variable {b : Block α} {xs : List α}

def StartsWith (b : Block α) (xs : List α) : Prop := xs <+: b.cells

theorem startsWith_nil : b.StartsWith [] := List.nil_prefix

theorem StartsWith.length_le (h : b.StartsWith xs) : xs.length ≤ b.size :=
  List.IsPrefix.length_le h

theorem StartsWith.of_append {ys : List α} (h : b.StartsWith (xs ++ ys)) : b.StartsWith xs :=
  (List.prefix_append xs ys).trans h

theorem StartsWith.read (h : b.StartsWith xs) {i : ℕ} (hi : i < xs.length) :
    b.read i = some xs[i] := List.prefix_iff_getElem?.1 h i hi

theorem StartsWith.readAll (h : b.StartsWith xs) : b.readAll xs.length = some xs := by
  rw [Block.readAll, if_pos h.length_le, ← List.prefix_iff_eq_take.1 h]

theorem StartsWith.write (h : b.StartsWith xs) (hlt : xs.length < b.size) (v : α) :
    ∃ b', b.write xs.length v = some b' ∧ b'.StartsWith (xs ++ [v]) ∧ b'.size = b.size := by
  obtain ⟨b', hb'⟩ := exists_write hlt v
  refine ⟨b', hb', ?_, size_of_write hb'⟩
  obtain ⟨ys, hys⟩ := h
  cases ys with
  | nil =>
    rw [size, ← hys, List.append_nil] at hlt
    exact absurd hlt (Nat.lt_irrefl _)
  | cons y ys =>
    rw [StartsWith, cells_of_write hb', ← hys, List.set_append_right _ _ (Nat.le_refl _),
      Nat.sub_self, List.set_cons_zero]
    exact ⟨ys, by simp⟩

theorem StartsWith.overwrite (h : b.StartsWith xs) {i : ℕ} (hi : i < xs.length) (v : α) :
    ∃ b', b.write i v = some b' ∧ b'.StartsWith (xs.set i v) ∧ b'.size = b.size := by
  obtain ⟨b', hb'⟩ := exists_write (Nat.lt_of_lt_of_le hi h.length_le) v
  refine ⟨b', hb', ?_, size_of_write hb'⟩
  obtain ⟨ys, hys⟩ := h
  rw [StartsWith, cells_of_write hb', ← hys, List.set_append_left _ _ hi]
  exact List.prefix_append _ _

theorem StartsWith.writeAll (h : b.StartsWith xs) (vs : List α)
    (hle : xs.length + vs.length ≤ b.size) : ∃ b', b.writeAll xs.length vs = some b' ∧
      b'.StartsWith (xs ++ vs) ∧ b'.size = b.size := by
  induction vs generalizing b xs with
  | nil => exact ⟨b, rfl, by rwa [List.append_nil], rfl⟩
  | cons v vs ih =>
    rw [List.length_cons] at hle
    obtain ⟨b₁, hb₁, h₁, hsize₁⟩ := h.write (by omega) v
    obtain ⟨b₂, hb₂, h₂, hsize₂⟩ := ih h₁ (by rw [List.length_append, List.length_singleton]; omega)
    rw [List.length_append, List.length_singleton] at hb₂
    rw [List.append_assoc, List.singleton_append] at h₂
    exact ⟨b₂, by rw [Block.writeAll, hb₁]; exact hb₂, h₂, hsize₂.trans hsize₁⟩

theorem StartsWith.realloc (h : b.StartsWith xs) {k : ℕ} (hk : xs.length ≤ k) (mem : ℕ → α) :
    (b.realloc k mem).StartsWith xs := by
  rw [StartsWith, List.prefix_iff_getElem?]
  intro i hi
  have hb : i < b.size := Nat.lt_of_lt_of_le hi h.length_le
  change (b.realloc k mem).read i = _
  rw [read_realloc hb (Nat.lt_of_lt_of_le hi hk)]
  exact List.prefix_iff_getElem?.1 h i hi

end Filled

section Held
variable {n : ℕ} {b : Block α} {f : Fin n → α} {xs : List α}

structure Holds (b : Block α) (f : Fin n → α) : Prop where
  size_eq : b.size = n
  read_eq : ∀ i : Fin n, b.read i = some (f i)

theorem Holds.write (h : b.Holds f) (i : Fin n) (v : α) :
    ∃ b', b.write i v = some b' ∧ b'.Holds (Function.update f i v) := by
  have hlt : (i : ℕ) < b.size := by
    rw [h.size_eq]
    exact i.isLt
  obtain ⟨b', hb'⟩ := exists_write hlt v
  refine ⟨b', hb', (size_of_write hb').trans h.size_eq, fun j => ?_⟩
  rw [read_of_write hb']
  by_cases hj : j = i
  · rw [if_pos (congrArg Fin.val hj), hj, Function.update_self]
  · rw [if_neg (fun hval => hj (Fin.ext hval)), Function.update_of_ne hj]
    exact h.read_eq j

theorem StartsWith.holds (h : b.StartsWith xs) (hsize : b.size = xs.length) :
    b.Holds fun i : Fin xs.length => xs.get i :=
  ⟨hsize, fun i => h.read i.isLt⟩

theorem StartsWith.holds_replicate {v : α} (h : b.StartsWith (List.replicate n v))
    (hsize : b.size = n) : b.Holds fun _ : Fin n => v := by
  refine ⟨hsize, fun i => ?_⟩
  rw [h.read (by rw [List.length_replicate]; exact i.isLt), List.getElem_replicate]

theorem Holds.readAll (h : b.Holds f) : b.readAll n = some (List.ofFn f) := by
  rw [Block.readAll, if_pos (Nat.le_of_eq h.size_eq.symm)]
  congr 1
  apply List.ext_getElem?
  intro i
  have hlength : b.cells.length = n := h.size_eq
  rw [List.getElem?_take, List.getElem?_ofFn]
  by_cases hi : i < n
  · rw [if_pos hi, dif_pos hi]
    exact h.read_eq ⟨i, hi⟩
  · rw [if_neg hi, dif_neg hi]

end Held

theorem le_size_of_writeAll {b b' : Block α} {i : ℕ} {vs : List α}
    (h : b.writeAll i vs = some b') (hne : vs ≠ []) : i + vs.length ≤ b.size := by
  induction vs generalizing b i with
  | nil => exact absurd rfl hne
  | cons v vs ih =>
    obtain ⟨b₁, hb₁, h⟩ := Option.bind_eq_some_iff.1 h
    have hlt := lt_size_of_write hb₁
    rw [List.length_cons]
    by_cases hvs : vs = []
    · rw [hvs, List.length_nil]
      omega
    · have hle := ih h hvs
      rw [size_of_write hb₁] at hle
      omega

section Strings

/-- `strcpy` to the cells from `i` on: the characters and the NUL. -/
def strcpy (b : Block Char) (i : ℕ) (str : List Char) : Option (Block Char) :=
  b.writeAll i (str ++ [Char.ofNat 0])

def str (b : Block Char) : Option (List Char) :=
  if Char.ofNat 0 ∈ b.cells then some (b.cells.takeWhile (· ≠ Char.ofNat 0)) else none

variable {b b' : Block Char} {xs text : List Char}

theorem StartsWith.str (h : b.StartsWith (xs ++ [Char.ofNat 0])) (hxs : Char.ofNat 0 ∉ xs) :
    b.str = some xs := by
  obtain ⟨ys, hys⟩ := h
  have hne : ∀ c ∈ xs, decide (c ≠ Char.ofNat 0) = true := by
    intro c hc
    apply decide_eq_true
    rintro rfl
    exact hxs hc
  rw [Block.str, ← hys, if_pos (by simp), List.append_assoc, List.singleton_append,
    List.takeWhile_append_of_pos hne, List.takeWhile_cons_of_neg (by decide), List.append_nil]

theorem StartsWith.strcpy (h : b.StartsWith xs) (text : List Char)
    (hle : xs.length + text.length < b.size) :
    ∃ b', b.strcpy xs.length text = some b' ∧ b'.StartsWith (xs ++ text ++ [Char.ofNat 0]) ∧
      b'.size = b.size := by
  rw [List.append_assoc]
  exact h.writeAll _ (by rw [List.length_append, List.length_singleton]; omega)

theorem lt_size_of_strcpy {i : ℕ} (h : b.strcpy i text = some b') : i + text.length < b.size := by
  have hle := le_size_of_writeAll h (by simp)
  rw [List.length_append, List.length_singleton] at hle
  omega

theorem str_of_strcpy {k : ℕ} {mem : ℕ → Char} (h : (malloc k mem).strcpy 0 text = some b)
    (hnul : Char.ofNat 0 ∉ text) : b.str = some text := by
  have hlt := lt_size_of_strcpy h
  obtain ⟨b', hb', hstart, -⟩ := (startsWith_nil (b := malloc k mem)).strcpy text (by
    rw [List.length_nil]
    exact hlt)
  rw [List.length_nil, h] at hb'
  rw [Option.some.inj hb']
  exact hstart.str hnul

end Strings

end Block

section Runs
variable {σ τ ι : Type} {f : σ → ι → Option σ} {R : σ → τ → Prop}

/-- Each step the abstract state allows is taken by the concrete one, so each run is. -/
theorem exists_foldlM_of_step {g : τ → ι → Option τ} {l : List ι}
    (hstep : ∀ s t t', ∀ x ∈ l, R s t → g t x = some t' → ∃ s', f s x = some s' ∧ R s' t')
    {s : σ} {t t' : τ} (h : R s t) (hl : l.foldlM g t = some t') :
    ∃ s', l.foldlM f s = some s' ∧ R s' t' := by
  induction l generalizing s t with
  | nil =>
    obtain rfl := Option.some.inj hl
    exact ⟨s, rfl, h⟩
  | cons x l ih =>
    rw [List.foldlM_cons] at hl
    obtain ⟨t₁, ht₁, hl⟩ := Option.bind_eq_some_iff.1 hl
    obtain ⟨s₁, hs₁, h₁⟩ := hstep s t t₁ x List.mem_cons_self h ht₁
    obtain ⟨s', hs', h'⟩ := ih (fun s t t' y hy => hstep s t t' y (List.mem_cons_of_mem x hy)) h₁ hl
    refine ⟨s', ?_, h'⟩
    rw [List.foldlM_cons, hs₁]
    exact hs'

theorem exists_foldlM_of_step_total {g : τ → ι → τ} {l : List ι}
    (hstep : ∀ s t, ∀ x ∈ l, R s t → ∃ s', f s x = some s' ∧ R s' (g t x))
    {s : σ} {t : τ} (h : R s t) :
    ∃ s', l.foldlM f s = some s' ∧ R s' (l.foldl g t) := by
  have hpure : l.foldlM (fun t x => some (g t x)) t = some (l.foldl g t) := List.foldlM_pure
  apply exists_foldlM_of_step _ h hpure
  intro s t t' x hx h ht
  obtain rfl := Option.some.inj ht
  exact hstep s t x hx h

/-- In a run that has a result every step has one, from a state with the invariant. -/
theorem exists_step_of_foldlM {I : σ → Prop} {l : List ι}
    (hstep : ∀ s s', ∀ x ∈ l, I s → f s x = some s' → I s') {s s' : σ} (hs : I s)
    (h : l.foldlM f s = some s') : ∀ x ∈ l, ∃ s₁ s₂, I s₁ ∧ f s₁ x = some s₂ := by
  induction l generalizing s with
  | nil => exact List.forall_mem_nil _
  | cons x l ih =>
    rw [List.foldlM_cons] at h
    obtain ⟨s₁, hs₁, h⟩ := Option.bind_eq_some_iff.1 h
    rw [List.forall_mem_cons]
    refine ⟨⟨s, s₁, hs, hs₁⟩, ih (fun s s' y hy => hstep s s' y (List.mem_cons_of_mem x hy)) ?_ h⟩
    exact hstep s s₁ x List.mem_cons_self hs hs₁

/-- Where it does not depend on the state whether a step has a result. -/
theorem isSome_foldlM_iff {P : ι → Prop} (hstep : ∀ s x, (f s x).isSome = true ↔ P x) (l : List ι)
    (s : σ) : (l.foldlM f s).isSome = true ↔ ∀ x ∈ l, P x := by
  induction l generalizing s with
  | nil => exact iff_of_true rfl (List.forall_mem_nil _)
  | cons x l ih =>
    rw [List.foldlM_cons, List.forall_mem_cons, ← hstep s x]
    cases hx : f s x with
    | none => simp
    | some s₁ => simpa using ih s₁

end Runs

end TaasFudge
