import TaasFudge.Taas.I23
import TaasFudge.Util.BitSetMemory

/-! # The TGF reader in memory

`taas__readFile_tgf` with the arrays it allocates. The first pass counts the arguments, which gives
the sizes; the second pass fills the arrays. Each name is copied to a buffer of its own, whose size
is that of a pointer and one more. The counters are of type `int`: the arrays are too short where the
first pass cannot count the arguments.
-/

namespace TaasFudge

/-- `sizeof(char*)` on a 64-bit platform. -/
def sizeofPointer : ℕ := 8

/-- What the allocations of the reader happen to contain. -/
structure TgfMem where
  name : ℕ → Char
  ids2arguments : ℕ → List Char
  children : ℕ → List ℕ
  parents : ℕ → List ℕ
  numberOfAttackers : ℕ → Int32
  initial : ℕ → BitVec 32
  loops : ℕ → BitVec 32

def zeroMem : TgfMem where
  name _ := Char.ofNat 0
  ids2arguments _ := []
  children _ := []
  parents _ := []
  numberOfAttackers _ := 0
  initial _ := 0#32
  loops _ := 0#32

structure TgfAttacks where
  numberOfAttacks : Int32
  initial : RawBitSet
  loops : RawBitSet

/-- The fields of the framework and the index of the second pass. Until the `#` line there are no
fields for the attacks, and `argumentSection` is not 0. -/
structure TgfState where
  numberOfArguments : ℕ
  ids2arguments : Block (List Char)
  arguments2ids : List Char → Option ℕ
  children : Block (List ℕ)
  parents : Block (List ℕ)
  numberOfAttackers : Block Int32
  attacks : Option TgfAttacks
  idx : ℕ

def prepend (lists : Block (List ℕ)) (i data : ℕ) : Option (Block (List ℕ)) := do
  let list ← lists.read i
  lists.write i (data :: list)

/-- The first pass. -/
def tgfCount : List (List Char) → Int32
  | [] => 0
  | row :: rows =>
    let trimmed := (trimwhitespace row).1
    if trimmed = [] then tgfCount rows
    else if trimmed = ['#'] then 0
    else tgfCount rows + 1

namespace TgfState

def start (mem : TgfMem) (numberOfArguments : ℕ) : TgfState where
  numberOfArguments := numberOfArguments
  ids2arguments := Block.malloc numberOfArguments mem.ids2arguments
  arguments2ids _ := none
  children := Block.malloc numberOfArguments mem.children
  parents := Block.malloc numberOfArguments mem.parents
  numberOfAttackers := Block.malloc numberOfArguments mem.numberOfAttackers
  attacks := none
  idx := 0

def argument (mem : TgfMem) (st : TgfState) (name : List Char) : Option TgfState := do
  let arg1 ← (Block.malloc (sizeofPointer + 1) mem.name).strcpy 0 name
  let arg1 ← arg1.str
  let ids2arguments ← st.ids2arguments.write st.idx arg1
  let children ← st.children.write st.idx []
  let parents ← st.parents.write st.idx []
  let numberOfAttackers ← st.numberOfAttackers.write st.idx 0
  some { st with
    ids2arguments := ids2arguments
    arguments2ids := Function.update st.arguments2ids arg1 (some st.idx)
    children := children
    parents := parents
    numberOfAttackers := numberOfAttackers
    idx := st.idx + 1 }

def switchSection (mem : TgfMem) (st : TgfState) : Option TgfState := do
  let initial ← (RawBitSet.init mem.initial st.idx).setAll
  let loops ← (RawBitSet.init mem.loops st.idx).unsetAll
  some { st with
    numberOfArguments := st.idx
    attacks := some { numberOfAttacks := 0, initial := initial, loops := loops } }

/-- An attack is parsed: the index is left at the blank. -/
def attack (st : TgfState) (attacks : TgfAttacks) (row : List Char) : Option TgfState := do
  let (source, target) ← splitAtBlank row
  let idx1 ← st.arguments2ids source
  let idx2 ← st.arguments2ids target
  let children ← prepend st.children idx1 idx2
  let parents ← prepend st.parents idx2 idx1
  let numberOfAttackers ← st.numberOfAttackers.write idx2 ((← st.numberOfAttackers.read idx2) + 1)
  let initial ← attacks.initial.unset idx2
  let loops ← (if idx1 = idx2 then attacks.loops.set idx1 else some attacks.loops)
  some { st with
    children := children
    parents := parents
    numberOfAttackers := numberOfAttackers
    attacks := some {
      numberOfAttacks := attacks.numberOfAttacks + 1, initial := initial, loops := loops }
    idx := source.length }

def row (mem : TgfMem) (st : TgfState) (row : List Char) : Option TgfState :=
  let (trimmed, row) := trimwhitespace row
  if trimmed = [] then some st
  else if trimmed = ['#'] then st.switchSection mem
  else match st.attacks with
    | none => st.argument mem trimmed
    | some attacks => st.attack attacks row

def readFile (mem : TgfMem) (file : List Char) : Option TgfState :=
  (getlines file).foldlM (row mem) (start mem (tgfCount (getlines file)).toInt.toNat)

end TgfState

variable {n : ℕ}

/-- The fields are those of a framework that was read. -/
structure TgfState.Refines (st : TgfState) (r : ReadAaf n) : Prop where
  number_eq : st.numberOfArguments = n
  names : st.ids2arguments.Holds fun i : Fin n => (r.aaf.ids2arguments i).toList
  lookup : ∀ name, st.arguments2ids name = (r.aaf.arguments2ids (String.ofList name)).map Fin.val
  children : st.children.Holds fun i : Fin n => (r.aaf.children i).map Fin.val
  parents : st.parents.Holds fun i : Fin n => (r.aaf.parents i).map Fin.val
  numberOfAttackers : st.numberOfAttackers.Holds r.numberOfAttackers
  attacks : ∃ a, st.attacks = some a ∧ a.numberOfAttacks = r.numberOfAttacks ∧
    a.initial.HasBits n (fun i => r.aaf.initial.get i = true) ∧
    a.loops.HasBits n fun i => r.loops.get i = true

theorem mem_of_mem_trimwhitespace {row : List Char} {c : Char} (h : c ∈ (trimwhitespace row).1) :
    c ∈ row := by
  rw [trimwhitespace] at h
  dsimp only at h
  split_ifs at h
  · exact (List.dropWhile_suffix _).mem h
  · exact (List.dropWhile_suffix _).mem ((List.rdropWhile_prefix _ _).mem h)

section Arguments
variable {mem : TgfMem} {st : TgfState} {count : ℕ} {names : List (List Char)}

def tableOf (names : List (List Char)) : List Char → Option ℕ :=
  names.zipIdx.foldl (fun table p => Function.update table p.1 (some p.2)) fun _ => none

theorem tableOf_append (names : List (List Char)) (name : List Char) :
    tableOf (names ++ [name]) = Function.update (tableOf names) name (some names.length) := by
  simp [tableOf, List.zipIdx_append]

structure TgfState.Stored (st : TgfState) (count : ℕ) (names : List (List Char)) : Prop where
  idx_eq : st.idx = names.length
  attacks_eq : st.attacks = none
  table : st.arguments2ids = tableOf names
  ids2arguments : st.ids2arguments.StartsWith names ∧ st.ids2arguments.size = count
  children : st.children.StartsWith (List.replicate names.length []) ∧ st.children.size = count
  parents : st.parents.StartsWith (List.replicate names.length []) ∧ st.parents.size = count
  numberOfAttackers : st.numberOfAttackers.StartsWith (List.replicate names.length 0) ∧
    st.numberOfAttackers.size = count

theorem TgfState.start_stored (mem : TgfMem) (count : ℕ) : (start mem count).Stored count [] where
  idx_eq := rfl
  attacks_eq := rfl
  table := rfl
  ids2arguments := ⟨Block.startsWith_nil, Block.size_malloc _ _⟩
  children := ⟨Block.startsWith_nil, Block.size_malloc _ _⟩
  parents := ⟨Block.startsWith_nil, Block.size_malloc _ _⟩
  numberOfAttackers := ⟨Block.startsWith_nil, Block.size_malloc _ _⟩

theorem TgfState.Stored.argument (h : st.Stored count names) (mem : TgfMem)
    (hcount : names.length < count)
    {name : List Char} (hshort : name.length ≤ sizeofPointer) (hnul : Char.ofNat 0 ∉ name) :
    ∃ st', st.argument mem name = some st' ∧ st'.Stored count (names ++ [name]) := by
  obtain ⟨arg1, hcopy, hfilled, -⟩ :=
    (Block.startsWith_nil (b := Block.malloc (sizeofPointer + 1) mem.name)).strcpy name
      (by rw [Block.size_malloc, List.length_nil]; omega)
  have hstr : arg1.str = some name := hfilled.str hnul
  obtain ⟨ids, hids, hidsStart, hidsSize⟩ := h.ids2arguments.1.write
    (by rwa [h.ids2arguments.2]) name
  obtain ⟨children, hchildren, hchildrenStart, hchildrenSize⟩ := h.children.1.write
    (by rwa [List.length_replicate, h.children.2]) []
  obtain ⟨parents, hparents, hparentsStart, hparentsSize⟩ := h.parents.1.write
    (by rwa [List.length_replicate, h.parents.2]) []
  obtain ⟨attackers, hattackers, hattackersStart, hattackersSize⟩ := h.numberOfAttackers.1.write
    (by rwa [List.length_replicate, h.numberOfAttackers.2]) 0
  rw [List.length_replicate, ← h.idx_eq] at hchildren hparents hattackers
  rw [← h.idx_eq] at hids
  refine ⟨{ st with
    ids2arguments := ids
    arguments2ids := Function.update st.arguments2ids name (some st.idx)
    children := children
    parents := parents
    numberOfAttackers := attackers
    idx := st.idx + 1 }, ?_, ?_⟩
  · rw [List.length_nil] at hcopy
    simp [TgfState.argument, hcopy, hstr, hids, hchildren, hparents, hattackers]
  · have hlength : (names ++ [name]).length = names.length + 1 := by simp
    constructor
    · rw [hlength, ← h.idx_eq]
    · exact h.attacks_eq
    · rw [tableOf_append, ← h.table, ← h.idx_eq]
    · exact ⟨hidsStart, hidsSize.trans h.ids2arguments.2⟩
    · rw [hlength, List.replicate_succ']
      exact ⟨hchildrenStart, hchildrenSize.trans h.children.2⟩
    · rw [hlength, List.replicate_succ']
      exact ⟨hparentsStart, hparentsSize.trans h.parents.2⟩
    · rw [hlength, List.replicate_succ']
      exact ⟨hattackersStart, hattackersSize.trans h.numberOfAttackers.2⟩

/-- What an argument leaves, and what it enters into the table. -/
theorem TgfState.of_argument {st' : TgfState} {name : List Char} (hnul : Char.ofNat 0 ∉ name)
    (h : st.argument mem name = some st') : st'.attacks = st.attacks ∧
      st'.arguments2ids = Function.update st.arguments2ids name (some st.idx) := by
  simp only [TgfState.argument, Option.bind_eq_bind, Option.bind_eq_some_iff] at h
  obtain ⟨arg1, hcopy, name', hstr, _, -, _, -, _, -, _, -, h⟩ := h
  rw [Block.str_of_strcpy hcopy hnul] at hstr
  obtain rfl := Option.some.inj hstr
  rw [← Option.some.inj h]
  exact ⟨rfl, rfl⟩

/-- An argument is entered only if there is room for it and for its name. -/
theorem TgfState.fits_of_argument {st' : TgfState} {name : List Char}
    (h : st.argument mem name = some st') : name.length ≤ sizeofPointer ∧
      st.idx < st.ids2arguments.size ∧ st'.idx = st.idx + 1 ∧
      st'.ids2arguments.size = st.ids2arguments.size := by
  simp only [TgfState.argument, Option.bind_eq_bind, Option.bind_eq_some_iff] at h
  obtain ⟨arg1, hcopy, _, -, _, hwrite, _, -, _, -, _, -, h⟩ := h
  have hlt := Block.lt_size_of_strcpy hcopy
  rw [Block.size_malloc] at hlt
  rw [← Option.some.inj h]
  exact ⟨by omega, Block.lt_size_of_write hwrite, rfl, Block.size_of_write hwrite⟩

/-- The number of arguments is the one that the first pass has counted. -/
theorem tgfCount_eq {rows rest names : List (List Char)}
    (h : tgfArguments rows = some (names, rest)) : tgfCount rows = Int32.ofNat names.length := by
  induction rows generalizing names with
  | nil => cases h
  | cons row rows ih =>
    rw [tgfArguments] at h
    rw [tgfCount]
    dsimp only at h ⊢
    split_ifs at h ⊢ with hblank hend
    · exact ih h
    · rw [← (Prod.mk.inj (Option.some.inj h)).1, List.length_nil]
      rfl
    · obtain ⟨⟨names', rest'⟩, hrest, h⟩ := Option.bind_eq_some_iff.1 h
      obtain ⟨rfl, rfl⟩ := Prod.mk.inj (Option.some.inj h)
      rw [ih hrest, List.length_cons]
      exact (Int32.ofNat_add _ _).symm

theorem exists_tgfArguments {rows : List (List Char)} {row : List Char} (hmem : row ∈ rows)
    (hend : (trimwhitespace row).1 = ['#']) :
    ∃ names rest, tgfArguments rows = some (names, rest) := by
  induction rows with
  | nil => cases hmem
  | cons first rows ih =>
    rw [tgfArguments]
    dsimp only
    split_ifs with hblank hfirst
    · rcases List.mem_cons.1 hmem with rfl | hmem
      · rw [hend] at hblank
        cases hblank
      · exact ih hmem
    · exact ⟨_, _, rfl⟩
    · rcases List.mem_cons.1 hmem with rfl | hmem
      · exact absurd hend hfirst
      · obtain ⟨names, rest, hrows⟩ := ih hmem
        exact ⟨_, _, by rw [hrows]; rfl⟩

theorem TgfState.row_argument {row : List Char} (h : st.attacks = none)
    (hblank : (trimwhitespace row).1 ≠ []) (hend : (trimwhitespace row).1 ≠ ['#']) :
    st.row mem row = st.argument mem (trimwhitespace row).1 := by
  rw [TgfState.row]
  dsimp only
  rw [if_neg hblank, if_neg hend, h]

/-- The rows up to the `#` line are the arguments. -/
theorem TgfState.Stored.arguments {rows rest new : List (List Char)} (h : st.Stored count names)
    (mem : TgfMem)
    (hrows : tgfArguments rows = some (new, rest)) (hcount : names.length + new.length ≤ count)
    (hshort : ∀ name ∈ new, name.length ≤ sizeofPointer ∧ Char.ofNat 0 ∉ name) :
    ∃ st' : TgfState, st'.Stored count (names ++ new) ∧ rows.foldlM (row mem) st =
      (st'.switchSection mem >>= rest.foldlM (row mem)) := by
  induction rows generalizing st names new with
  | nil => cases hrows
  | cons row rows ih =>
    rw [tgfArguments] at hrows
    dsimp only at hrows
    rw [List.foldlM_cons]
    split_ifs at hrows with hblank hend
    · obtain ⟨st', h', hrun⟩ := ih h hrows hcount hshort
      refine ⟨st', h', ?_⟩
      rw [← hrun, TgfState.row]
      dsimp only
      rw [if_pos hblank]
      rfl
    · obtain ⟨rfl, rfl⟩ := Prod.mk.inj (Option.some.inj hrows)
      refine ⟨st, by rwa [List.append_nil], ?_⟩
      rw [TgfState.row]
      dsimp only
      rw [if_neg hblank, if_pos hend]
    · obtain ⟨⟨new', rest'⟩, hrest, hrows⟩ := Option.bind_eq_some_iff.1 hrows
      obtain ⟨rfl, rfl⟩ := Prod.mk.inj (Option.some.inj hrows)
      rw [List.forall_mem_cons] at hshort
      rw [List.length_cons] at hcount
      dsimp only at hcount hshort ⊢
      obtain ⟨st₁, hst₁, h₁⟩ := h.argument mem (by omega) hshort.1.1 hshort.1.2
      obtain ⟨st', h', hrun⟩ := ih h₁ hrest
        (by rw [List.length_append, List.length_singleton]; omega) hshort.2
      refine ⟨st', by rwa [List.append_assoc] at h', ?_⟩
      rw [row_argument h.attacks_eq hblank hend, hst₁, ← hrun]
      rfl

/-- Where the rows are read there is room for all arguments and their names. -/
theorem TgfState.fits_of_arguments {rows rest new : List (List Char)} {st' : TgfState}
    (h : st.attacks = none) (hroom : st.idx ≤ st.ids2arguments.size)
    (hrows : tgfArguments rows = some (new, rest)) (hnul : ∀ row ∈ rows, Char.ofNat 0 ∉ row)
    (hrun : rows.foldlM (row mem) st = some st') :
    st.idx + new.length ≤ st.ids2arguments.size ∧ ∀ name ∈ new, name.length ≤ sizeofPointer := by
  induction rows generalizing st new with
  | nil => cases hrows
  | cons row rows ih =>
    rw [tgfArguments] at hrows
    dsimp only at hrows
    rw [List.forall_mem_cons] at hnul
    obtain ⟨st₁, hrow, hrun⟩ := Option.bind_eq_some_iff.1 hrun
    split_ifs at hrows with hblank hend
    · rw [TgfState.row] at hrow
      dsimp only at hrow
      rw [if_pos hblank] at hrow
      obtain rfl := Option.some.inj hrow
      exact ih h hroom hrows hnul.2 hrun
    · obtain ⟨rfl, rfl⟩ := Prod.mk.inj (Option.some.inj hrows)
      exact ⟨hroom, List.forall_mem_nil _⟩
    · obtain ⟨⟨new', rest'⟩, hrest, hrows⟩ := Option.bind_eq_some_iff.1 hrows
      obtain ⟨rfl, rfl⟩ := Prod.mk.inj (Option.some.inj hrows)
      rw [row_argument h hblank hend] at hrow
      obtain ⟨hshort, hlt, hidx, hsize⟩ := fits_of_argument hrow
      have hnone := (of_argument (mt mem_of_mem_trimwhitespace hnul.1) hrow).1.trans h
      have hnext := ih hnone (by omega) hrest hnul.2 hrun
      rw [hidx, hsize] at hnext
      rw [List.length_cons, List.forall_mem_cons]
      dsimp only at hnext ⊢
      exact ⟨by omega, hshort, hnext.2⟩

end Arguments

/-- Looking a name up among the arguments is looking it up in the table. -/
theorem lookup_foldl (names : Fin n → List Char) (l : List (Fin n))
    (table : List Char → Option ℕ) (table' : String → Option (Fin n))
    (h : ∀ name, table name = (table' (String.ofList name)).map Fin.val) (name : List Char) :
    l.foldl (fun t i => Function.update t (names i) (some (i : ℕ))) table name =
      (l.foldl (fun t i => Function.update t (String.ofList (names i)) (some i)) table'
        (String.ofList name)).map Fin.val := by
  induction l generalizing table table' with
  | nil => exact h name
  | cons i l ih =>
    rw [List.foldl_cons, List.foldl_cons]
    apply ih
    intro x
    by_cases hx : x = names i
    · rw [hx, Function.update_self, Function.update_self, Option.map_some]
    · rw [Function.update_of_ne hx, Function.update_of_ne (mt String.ofList_inj.1 hx), h]

theorem tableOf_eq (names : List (List Char)) (name : List Char) :
    tableOf names name = ((ReadAaf.start fun i : Fin names.length =>
      String.ofList (names.get i)).aaf.arguments2ids (String.ofList name)).map Fin.val := by
  have hindex : names.zipIdx = (List.finRange names.length).map fun i => (names.get i, (i : ℕ)) := by
    apply List.ext_getElem
    · simp
    · intro i h₁ h₂
      simp
  rw [tableOf, hindex, List.foldl_map]
  exact lookup_foldl names.get _ _ (fun _ => none) (fun _ => rfl) name

/-- The framework is held, and until the first attack the index is the number of arguments. -/
structure TgfState.InAttacks (st : TgfState) (r : ReadAaf n) : Prop where
  refines : st.Refines r
  fresh : r.aaf.numberOfAttacks = 0 → st.idx = n ∧ ∀ i : Fin n, r.loops.get i = false

variable {mem : TgfMem} {st : TgfState}

theorem TgfState.Stored.switchSection {names : List (List Char)}
    (h : st.Stored names.length names) (mem : TgfMem) : ∃ st', st.switchSection mem = some st' ∧
      st'.InAttacks (ReadAaf.start fun i : Fin names.length => String.ofList (names.get i)) := by
  obtain ⟨initial, hinitial, hallBits⟩ := RawBitSet.init_setAll_hasBits mem.initial names.length
  obtain ⟨loops, hloops, hnoBits⟩ := RawBitSet.init_unsetAll_hasBits mem.loops names.length
  rw [← h.idx_eq] at hinitial hloops
  have hnone (i : Fin names.length) : (ReadAaf.start fun i : Fin names.length =>
      String.ofList (names.get i)).loops.get i = false :=
    BitSet.get_unsetAll _ (Nat.le_of_lt i.isLt)
  refine ⟨{ st with
    numberOfArguments := st.idx
    attacks := some { numberOfAttacks := 0, initial := initial, loops := loops } }, ?_, ?_, ?_⟩
  · simp [TgfState.switchSection, hinitial, hloops]
  · constructor
    · exact h.idx_eq
    · simp only [ReadAaf.start_names, String.toList_ofList]
      exact h.ids2arguments.1.holds h.ids2arguments.2
    · intro name
      rw [← tableOf_eq, ← h.table]
    · exact h.children.1.holds_replicate h.children.2
    · exact h.parents.1.holds_replicate h.parents.2
    · exact h.numberOfAttackers.1.holds_replicate h.numberOfAttackers.2
    · refine ⟨_, rfl, rfl, hallBits.congr fun i => ?_, hnoBits.congr fun i => ?_⟩
      · exact iff_of_true trivial (BitSet.get_setAll _ (Nat.le_of_lt i.isLt))
      · rw [hnone]
        exact iff_of_false id Bool.false_ne_true
  · intro _
    exact ⟨h.idx_eq, hnone⟩

variable {r r' : ReadAaf n}

theorem prepend_holds {lists : Block (List ℕ)} {f : Fin n → List (Fin n)}
    (h : lists.Holds fun i => (f i).map Fin.val) (i data : Fin n) :
    ∃ lists', prepend lists i data = some lists' ∧
      lists'.Holds fun j => (Function.update f i (data :: f i) j).map Fin.val := by
  obtain ⟨lists', hwrite, h'⟩ := h.write i ((data : ℕ) :: (f i).map Fin.val)
  refine ⟨lists', by rw [prepend, h.read_eq i]; exact hwrite, ?_⟩
  convert h' using 1
  funext j
  by_cases hj : j = i
  · rw [hj, Function.update_self, Function.update_self, List.map_cons]
  · rw [Function.update_of_ne hj, Function.update_of_ne hj]

theorem TgfAttacks.attack_loops {a : TgfAttacks}
    (hloops : a.loops.HasBits n fun i => r.loops.get i = true) (idx1 idx2 : Fin n) :
    ∃ loops, (if (idx1 : ℕ) = idx2 then a.loops.set idx1 else some a.loops) = some loops ∧
      loops.HasBits n fun i => (r.attack idx1 idx2).loops.get i = true := by
  by_cases heq : idx1 = idx2
  · obtain ⟨loops, hset, hl⟩ := hloops.set idx1
    refine ⟨loops, by rwa [if_pos (congrArg Fin.val heq)], hl.congr fun i => ?_⟩
    rw [ReadAaf.attack, if_pos heq, BitSet.get_set, Bool.or_eq_true, decide_eq_true_iff,
      Fin.val_inj, eq_comm (a := i)]
  · refine ⟨a.loops, if_neg fun hval => heq (Fin.ext hval), hloops.congr fun i => ?_⟩
    rw [ReadAaf.attack, if_neg heq]

theorem TgfState.Refines.attack (h : st.Refines r) {row source target : List Char}
    {idx1 idx2 : Fin n} (hsplit : splitAtBlank row = some (source, target))
    (hsource : r.aaf.arguments2ids (String.ofList source) = some idx1)
    (htarget : r.aaf.arguments2ids (String.ofList target) = some idx2) :
    ∃ a, st.attacks = some a ∧ ∃ st', st.attack a row = some st' ∧
      st'.Refines (r.attack idx1 idx2) := by
  obtain ⟨a, ha, hnumber, hinitial, hloops⟩ := h.attacks
  have h1 := h.lookup source
  have h2 := h.lookup target
  rw [hsource, Option.map_some] at h1
  rw [htarget, Option.map_some] at h2
  obtain ⟨children, hchildren, hc⟩ := prepend_holds h.children idx1 idx2
  obtain ⟨parents, hparents, hp⟩ := prepend_holds h.parents idx2 idx1
  obtain ⟨attackers, hattackers, hn⟩ := h.numberOfAttackers.write idx2
    (r.numberOfAttackers idx2 + 1)
  obtain ⟨initial, hunset, hi⟩ := hinitial.unset idx2
  obtain ⟨loops, hset, hl⟩ := TgfAttacks.attack_loops hloops idx1 idx2
  refine ⟨a, ha, { st with
    children := children
    parents := parents
    numberOfAttackers := attackers
    attacks := some { numberOfAttacks := a.numberOfAttacks + 1, initial := initial, loops := loops }
    idx := source.length }, ?_, ?_⟩
  · rw [TgfState.attack, hsplit]
    simp only [Option.bind_eq_bind, Option.bind_some, h1, h2, hchildren, hparents,
      h.numberOfAttackers.read_eq, hattackers, hunset, hset]
  · constructor
    · exact h.number_eq
    · exact h.names
    · exact h.lookup
    · exact hc
    · exact hp
    · exact hn
    · refine ⟨_, rfl, congrArg (· + 1) hnumber, hi.congr fun i => ?_, hl⟩
      have hget : (r.attack idx1 idx2).aaf.initial.get i = true ↔
          (r.aaf.initial.unset idx2).get i = true := Iff.rfl
      rw [hget, BitSet.get_unset, Bool.and_eq_true, decide_eq_true_iff, ne_eq, ne_eq, Fin.val_inj,
        eq_comm (a := i)]

theorem AAF.initial_of_noAttacks {aaf : AAF n} (h : aaf.numberOfAttacks = 0) (j : Fin n) :
    aaf.initial.get j = true := by
  have hsum := aaf.attacks_eq
  rw [h, eq_comm, List.sum_eq_zero_iff] at hsum
  rw [aaf.initial_iff, ← List.length_eq_zero_iff]
  exact hsum _ (List.mem_map_of_mem (List.mem_finRange j))

theorem TgfState.InAttacks.switchSection (h : st.InAttacks r) (hfresh : r.aaf.numberOfAttacks = 0) :
    ∃ st', st.switchSection mem = some st' ∧ st'.InAttacks r := by
  obtain ⟨hidx, hloops⟩ := h.fresh hfresh
  obtain ⟨initial, hinitial, hallBits⟩ := RawBitSet.init_setAll_hasBits mem.initial n
  obtain ⟨loops, hunset, hnoBits⟩ := RawBitSet.init_unsetAll_hasBits mem.loops n
  rw [← hidx] at hinitial hunset
  obtain ⟨hnumber, hnames, hlookup, hchildren, hparents, hattackers, -⟩ := h.refines
  refine ⟨{ st with
    numberOfArguments := st.idx
    attacks := some { numberOfAttacks := 0, initial := initial, loops := loops } }, ?_, ?_, ?_⟩
  · simp [TgfState.switchSection, hinitial, hunset]
  · have hnone : 0 = r.numberOfAttacks := by rw [r.attacks_eq, hfresh]; rfl
    refine ⟨hidx, hnames, hlookup, hchildren, hparents, hattackers, _, rfl, hnone, ?_, ?_⟩
    · exact hallBits.congr fun i => iff_of_true trivial (AAF.initial_of_noAttacks hfresh i)
    · exact hnoBits.congr fun i => iff_of_false id (by rw [hloops]; exact Bool.false_ne_true)
  · intro _
    exact ⟨hidx, hloops⟩

theorem TgfState.InAttacks.row {row : List Char} (h : st.InAttacks r) (hrow : tgfRow r row = some r') :
    ∃ st', st.row mem row = some st' ∧ st'.InAttacks r' := by
  rw [TgfState.row]
  unfold tgfRow at hrow
  dsimp only at hrow ⊢
  split_ifs at hrow ⊢ with hblank hend hfresh
  · obtain rfl := Option.some.inj hrow
    exact ⟨st, rfl, h⟩
  · obtain rfl := Option.some.inj hrow
    exact h.switchSection hfresh
  · obtain ⟨⟨source, target⟩, hsplit, hrow⟩ := Option.bind_eq_some_iff.1 hrow
    obtain ⟨idx1, h1, hrow⟩ := Option.bind_eq_some_iff.1 hrow
    obtain ⟨idx2, h2, hrow⟩ := Option.bind_eq_some_iff.1 hrow
    obtain rfl := Option.some.inj hrow
    obtain ⟨a, ha, st', hst', h'⟩ := h.refines.attack hsplit h1 h2
    refine ⟨st', by rw [ha]; exact hst', h', fun hnone => ?_⟩
    exact absurd hnone (Nat.succ_ne_zero _)

/-- After the `#` line the names stay as they are. -/
theorem TgfState.names_of_row {st' : TgfState} {a : TgfAttacks} {row : List Char}
    (ha : st.attacks = some a) (h : st.row mem row = some st') :
    st'.ids2arguments = st.ids2arguments ∧ st'.arguments2ids = st.arguments2ids ∧
      ∃ a', st'.attacks = some a' := by
  rw [TgfState.row] at h
  dsimp only at h
  rw [ha] at h
  split_ifs at h
  · obtain rfl := Option.some.inj h
    exact ⟨rfl, rfl, a, ha⟩
  · simp only [TgfState.switchSection, Option.bind_eq_bind, Option.bind_eq_some_iff] at h
    obtain ⟨_, -, _, -, h⟩ := h
    obtain rfl := Option.some.inj h
    exact ⟨rfl, rfl, _, rfl⟩
  · simp only [TgfState.attack, Option.bind_eq_bind, Option.bind_eq_some_iff] at h
    obtain ⟨_, -, _, -, _, -, _, -, _, -, _, -, _, -, _, -, _, -, h⟩ := h
    obtain rfl := Option.some.inj h
    exact ⟨rfl, rfl, _, rfl⟩

theorem TgfState.ids2arguments_run {st' : TgfState} {a : TgfAttacks} {rows : List (List Char)}
    (ha : st.attacks = some a) (h : rows.foldlM (TgfState.row mem) st = some st') :
    st'.ids2arguments = st.ids2arguments := by
  induction rows generalizing st a with
  | nil => rw [Option.some.inj h]
  | cons row rows ih =>
    obtain ⟨st₁, hrow, h⟩ := Option.bind_eq_some_iff.1 h
    obtain ⟨hids, -, a₁, ha₁⟩ := names_of_row ha hrow
    rw [ih ha₁ h, hids]

/-- What is read as a string has no NUL in it. -/
theorem nul_notMem_takeWhile (line : List Char) :
    Char.ofNat 0 ∉ line.takeWhile (· ≠ Char.ofNat 0) := by
  intro hnul
  have hne := List.mem_takeWhile_imp hnul
  exact of_decide_eq_true hne rfl

theorem nul_notMem_of_mem_getlines {file row : List Char} (h : row ∈ getlines file) :
    Char.ofNat 0 ∉ row := by
  obtain ⟨line, -, rfl⟩ := List.mem_map.1 h
  exact nul_notMem_takeWhile line

theorem nul_notMem_of_mem_tgfArguments {rows rest names : List (List Char)}
    (h : tgfArguments rows = some (names, rest)) (hrows : ∀ row ∈ rows, Char.ofNat 0 ∉ row) :
    ∀ name ∈ names, Char.ofNat 0 ∉ name := by
  induction rows generalizing names with
  | nil => cases h
  | cons row rows ih =>
    rw [List.forall_mem_cons] at hrows
    rw [tgfArguments] at h
    dsimp only at h
    split_ifs at h with hblank hend
    · exact ih h hrows.2
    · obtain ⟨rfl, -⟩ := Prod.mk.inj (Option.some.inj h)
      exact List.forall_mem_nil _
    · obtain ⟨⟨names', rest'⟩, hrest, h⟩ := Option.bind_eq_some_iff.1 h
      obtain ⟨rfl, rfl⟩ := Prod.mk.inj (Option.some.inj h)
      rw [List.forall_mem_cons]
      exact ⟨fun hnul => hrows.1 (mem_of_mem_trimwhitespace hnul), ih hrest hrows.2⟩

/-- The state after the `#` line, when all names fit. -/
theorem TgfState.readFile_eq (mem : TgfMem) {file : List Char} {names rest : List (List Char)}
    (hnames : tgfArguments (getlines file) = some (names, rest)) (hlength : names.length ≤ intMax)
    (hshort : ∀ name ∈ names, name.length ≤ sizeofPointer) :
    ∃ st : TgfState, st.InAttacks (ReadAaf.start fun i : Fin names.length =>
      String.ofList (names.get i)) ∧ readFile mem file = rest.foldlM (TgfState.row mem) st := by
  have hnul := nul_notMem_of_mem_tgfArguments hnames fun row => nul_notMem_of_mem_getlines
  obtain ⟨st, hstored, hrun⟩ := (start_stored mem names.length).arguments mem hnames
    (by rw [List.length_nil, Nat.zero_add]) fun name hname => ⟨hshort name hname, hnul name hname⟩
  obtain ⟨st', hst', h'⟩ := hstored.switchSection mem
  refine ⟨st', h', ?_⟩
  rw [readFile, tgfCount_eq hnames, Int32.toInt_ofNat_of_le hlength, Int.toNat_natCast, hrun, hst']
  rfl

/-- What the reader builds in memory is the framework that is read, if each name fits. -/
theorem TgfState.readFile_refines (mem : TgfMem) {file : List Char}
    (h : readFileTgf file = some ⟨n, r⟩) (hn : n ≤ intMax)
    (hshort : ∀ i, (r.aaf.ids2arguments i).toList.length ≤ sizeofPointer) :
    ∃ st, readFile mem file = some st ∧ st.Refines r := by
  obtain ⟨⟨names, rest⟩, hnames, h⟩ := Option.bind_eq_some_iff.1 h
  obtain ⟨r', hrest, h⟩ := Option.bind_eq_some_iff.1 h
  obtain ⟨rfl, hr⟩ := Sigma.mk.inj (Option.some.inj h)
  obtain rfl := eq_of_heq hr
  have hall : ∀ name ∈ names, name.length ≤ sizeofPointer := by
    intro name hname
    obtain ⟨i, rfl⟩ := List.get_of_mem hname
    have hi := hshort i
    rwa [foldlM_tgfRow_names hrest, ReadAaf.start_names, String.toList_ofList] at hi
  obtain ⟨st, hst, hrun⟩ := readFile_eq mem hnames hn hall
  obtain ⟨st', hst', h'⟩ := exists_foldlM_of_step (f := TgfState.row mem)
    (R := fun st r => TgfState.InAttacks st r) (fun _ _ _ _ _ h hrow => h.row hrow) hst hrest
  exact ⟨st', hrun.trans hst', h'.refines⟩

end TaasFudge
