import Mathlib
import TaasFudge.Taas.Aaf
import TaasFudge.Util.CInt

/-! # The readers

A file is a list of characters, each of which stands for one byte; a row is a C string. Names and
rows are values here: the sizes of the buffers they are copied to play no part. A reader has no
result when the scan for the blank of an attack runs past the NUL of its row or past `INT_MAX`, when
an argument does not exist, or when a size was never set. The code has no framework to show for it
then, except that a scan past the NUL goes on in the buffer of `getline`, with what earlier rows have
left there.
-/

namespace TaasFudge

variable {n : ℕ}

/-- `isspace` in the C locale. -/
def isspace (c : Char) : Bool := c == ' ' || (9 ≤ c.toNat && c.toNat ≤ 13)

/-- The string that is returned, and what the argument holds afterwards: white space at the end
is cut off in place, white space at the start is only skipped. -/
def trimwhitespace (str : List Char) : List Char × List Char :=
  let rest := str.dropWhile isspace
  -- all spaces?
  if rest = [] then (rest, str)
  else
    let trimmed := rest.rdropWhile isspace
    (trimmed, str.takeWhile isspace ++ trimmed)

def fileRows : List Char → List (List Char)
  | [] => []
  | c :: cs =>
    if c = '\n' then [c] :: fileRows cs
    else match fileRows cs with
      | [] => [[c]]
      | row :: rows => (c :: row) :: rows

/-- What successive calls of `getline` read, as strings: these end before a NUL. -/
def getlines (file : List Char) : List (List Char) :=
  (fileRows file).map fun row => row.takeWhile (· ≠ Char.ofNat 0)

def leadingDigits (str : List Char) : ℕ := Nat.ofDigitChars 10 (str.takeWhile Char.isDigit) 0

/-- The number at the start of a string, after white space and a sign. -/
def leadingNumber (str : List Char) : ℤ :=
  match str.dropWhile isspace with
  | '-' :: digits => -leadingDigits digits
  | '+' :: digits => leadingDigits digits
  | digits => leadingDigits digits

/-- `strtol` stays within the range of `long`, and the `int` keeps the lower half of it. -/
def atoi (str : List Char) : Int32 :=
  Int32.ofInt (max (-2 ^ 63) (min (2 ^ 63 - 1) (leadingNumber str)))

/-- At most `size` characters are written, the terminating NUL among them. -/
def snprintf (size : ℕ) (text : List Char) : List Char := text.take (size - 1)

/-- `while(row[idx] != ' ') idx++; row[idx] = 0;`: the strings before and after the blank, whose
place is an `int`. -/
def splitAtBlank (row : List Char) : Option (List Char × List Char) :=
  match row.dropWhile (· ≠ ' ') with
  | [] => none
  | _ :: target =>
    let source := row.takeWhile (· ≠ ' ')
    if source.length ≤ intMax then some (source, target) else none

/-- `arguments2ids` after inserting all names in order: a later argument replaces an earlier one
of the same name. -/
def AAF.arguments2ids (aaf : AAF n) : String → Option (Fin n) :=
  (List.finRange n).foldl (fun table i => Function.update table (aaf.ids2arguments i) (some i))
    fun _ => none

/-- A framework that was read, with the bits of the arguments that attack themselves. Its counters
are of type `int`; those of `aaf` are the numbers they stand for. -/
structure ReadAaf (n : ℕ) where
  aaf : AAF n
  loops : BitSet
  numberOfAttacks : Int32
  numberOfAttackers : Fin n → Int32
  attacks_eq : numberOfAttacks = Int32.ofNat aaf.numberOfAttacks
  attackers_eq : ∀ j, numberOfAttackers j = Int32.ofNat (aaf.numberOfAttackers j)

def ReadAaf.start (ids2arguments : Fin n → String) : ReadAaf n where
  aaf := AAF.withoutAttacks ids2arguments
  loops := (BitSet.init (fun _ => 0#32) n).unsetAll
  numberOfAttacks := 0
  numberOfAttackers _ := 0
  attacks_eq := rfl
  attackers_eq _ := rfl

def ReadAaf.attack (r : ReadAaf n) (idx1 idx2 : Fin n) : ReadAaf n where
  aaf := r.aaf.addAttack idx1 idx2
  loops := if idx1 = idx2 then r.loops.set idx1 else r.loops
  numberOfAttacks := r.numberOfAttacks + 1
  numberOfAttackers := Function.update r.numberOfAttackers idx2 (r.numberOfAttackers idx2 + 1)
  attacks_eq := by
    rw [r.attacks_eq]
    exact (Int32.ofNat_add _ _).symm
  attackers_eq j := by
    by_cases hj : j = idx2
    · subst hj
      simp only [Function.update_self, r.attackers_eq]
      exact ((Int32.ofNat_add _ _).symm).trans (by simp [AAF.addAttack])
    · simp [AAF.addAttack, hj, r.attackers_eq]

/-- The number of arguments and the rows after the line that gives it. -/
def readHeader : List (List Char) → Option (Int32 × List (List Char))
  | [] => none
  | row :: rows =>
    let trimmed := (trimwhitespace row).1
    if "#".toList.isPrefixOf trimmed then readHeader rows
    else if "p af".toList.isPrefixOf trimmed then some (atoi (trimmed.drop 4), rows)
    else readHeader rows

/-- The name of an argument in a buffer for as many digits as the logarithm gives. -/
def i23Name (idx : ℕ) : String :=
  String.ofList (snprintf (Nat.log 10 (idx + 1) + 2) (Nat.toDigits 10 (idx + 1)))

/-- `atoi(str) - 1` as an index. -/
def i23Index (n : ℕ) (str : List Char) : Option (Fin n) :=
  if h : 0 ≤ (atoi str).toInt - 1 ∧ ((atoi str).toInt - 1).toNat < n then some ⟨_, h.2⟩ else none

def i23Row (r : ReadAaf n) (row : List Char) : Option (ReadAaf n) :=
  let (trimmed, row) := trimwhitespace row
  if trimmed = [] then some r
  else if "#".toList.isPrefixOf trimmed then some r
  else do
    let (source, target) ← splitAtBlank row
    let idx1 ← i23Index n source
    let idx2 ← i23Index n target
    some (r.attack idx1 idx2)

def readFileI23 (file : List Char) : Option (Σ n, ReadAaf n) := do
  let (number, rows) ← readHeader (getlines file)
  if number.toInt < 0 then none
  else
    let r ← rows.foldlM i23Row (ReadAaf.start fun i : Fin number.toInt.toNat => i23Name i)
    some ⟨_, r⟩

/-- The names before the line that ends the arguments, and the rows after it. -/
def tgfArguments : List (List Char) → Option (List (List Char) × List (List Char))
  | [] => none
  | row :: rows =>
    let trimmed := (trimwhitespace row).1
    if trimmed = [] then tgfArguments rows
    else if trimmed = ['#'] then some ([], rows)
    else do
      let (names, rows) ← tgfArguments rows
      some (trimmed :: names, rows)

/-- A second `#` starts the attacks anew; once attacks have been read it takes the number of
arguments from the column of the last blank, and the lists of the attacks are still there. The code
goes on with these fields, as `TgfState.row` does; here there is no result, for they are no
framework. -/
def tgfRow (r : ReadAaf n) (row : List Char) : Option (ReadAaf n) :=
  let (trimmed, row) := trimwhitespace row
  if trimmed = [] then some r
  else if trimmed = ['#'] then if r.aaf.numberOfAttacks = 0 then some r else none
  else do
    let (source, target) ← splitAtBlank row
    let idx1 ← r.aaf.arguments2ids (String.ofList source)
    let idx2 ← r.aaf.arguments2ids (String.ofList target)
    some (r.attack idx1 idx2)

def readFileTgf (file : List Char) : Option (Σ n, ReadAaf n) := do
  let (names, rows) ← tgfArguments (getlines file)
  let r ← rows.foldlM tgfRow (ReadAaf.start fun i : Fin names.length => String.ofList (names.get i))
  some ⟨_, r⟩

namespace ReadAaf

def attackAll (r : ReadAaf n) (attacks : List (Fin n × Fin n)) : ReadAaf n :=
  attacks.foldl (fun r a => r.attack a.1 a.2) r

@[simp] theorem attackAll_nil (r : ReadAaf n) : r.attackAll [] = r := rfl

@[simp] theorem attackAll_cons (r : ReadAaf n) (a : Fin n × Fin n) (as : List (Fin n × Fin n)) :
    r.attackAll (a :: as) = (r.attack a.1 a.2).attackAll as := rfl

@[simp] theorem start_parents (ids2arguments : Fin n → String) (j : Fin n) :
    (start ids2arguments).aaf.parents j = [] := rfl

@[simp] theorem start_names (ids2arguments : Fin n → String) :
    (start ids2arguments).aaf.ids2arguments = ids2arguments := rfl

@[simp] theorem attack_names (r : ReadAaf n) (i j : Fin n) :
    (r.attack i j).aaf.ids2arguments = r.aaf.ids2arguments := rfl

theorem attack_parents (r : ReadAaf n) (i j k : Fin n) :
    (r.attack i j).aaf.parents k =
      if j = k then i :: r.aaf.parents k else r.aaf.parents k := by
  by_cases h : j = k
  · subst h
    simp [attack, AAF.addAttack]
  · simp [attack, AAF.addAttack, h, Ne.symm h]

@[simp] theorem attackAll_names (r : ReadAaf n) (as : List (Fin n × Fin n)) :
    (r.attackAll as).aaf.ids2arguments = r.aaf.ids2arguments := by
  induction as generalizing r with
  | nil => rfl
  | cons a as ih => rw [attackAll_cons, ih, attack_names]

theorem attackAll_parents (r : ReadAaf n) (as : List (Fin n × Fin n)) (j : Fin n) :
    (r.attackAll as).aaf.parents j =
      ((as.filter (·.2 = j)).map Prod.fst).reverse ++ r.aaf.parents j := by
  induction as generalizing r with
  | nil => rfl
  | cons a as ih =>
    rw [attackAll_cons, ih, attack_parents]
    by_cases h : a.2 = j
    · simp [h]
    · simp [h]

theorem attack_children (r : ReadAaf n) (i j k : Fin n) :
    (r.attack i j).aaf.children k =
      if i = k then j :: r.aaf.children k else r.aaf.children k := by
  by_cases h : i = k
  · subst h
    simp [attack, AAF.addAttack]
  · simp [attack, AAF.addAttack, h, Ne.symm h]

/-- The arguments that an argument attacks, the last one first. -/
theorem attackAll_children (r : ReadAaf n) (as : List (Fin n × Fin n)) (i : Fin n) :
    (r.attackAll as).aaf.children i =
      ((as.filter (·.1 = i)).map Prod.snd).reverse ++ r.aaf.children i := by
  induction as generalizing r with
  | nil => rfl
  | cons a as ih =>
    rw [attackAll_cons, ih, attack_children]
    by_cases h : a.1 = i
    · simp [h]
    · simp [h]

theorem attackAll_numberOfAttacks (r : ReadAaf n) (as : List (Fin n × Fin n)) :
    (r.attackAll as).aaf.numberOfAttacks = r.aaf.numberOfAttacks + as.length := by
  induction as generalizing r with
  | nil => rfl
  | cons a as ih =>
    rw [attackAll_cons, ih, List.length_cons]
    change r.aaf.numberOfAttacks + 1 + as.length = r.aaf.numberOfAttacks + (as.length + 1)
    omega

theorem attackAll_loops (r : ReadAaf n) (as : List (Fin n × Fin n)) (j : Fin n) :
    (r.attackAll as).loops.get j = true ↔ r.loops.get j = true ∨ (j, j) ∈ as := by
  induction as generalizing r with
  | nil => simp
  | cons a as ih =>
    rw [attackAll_cons, ih, List.mem_cons, Prod.ext_iff]
    by_cases ha : a.1 = a.2
    · have hbit : ((a.1 : ℕ) = j) ↔ j = a.1 := by rw [Fin.ext_iff, eq_comm]
      simp [attack, hbit, ← ha, or_assoc]
    · have hne : ¬ (j = a.1 ∧ j = a.2) := fun h => ha (h.1.symm.trans h.2)
      simp [attack, ha, hne]

theorem toInt_numberOfAttacks_eq_iff (r : ReadAaf n) :
    r.numberOfAttacks.toInt = r.aaf.numberOfAttacks ↔ r.aaf.numberOfAttacks ≤ intMax := by
  rw [r.attacks_eq]
  exact Int32.toInt_ofNat_eq_iff

theorem toInt_numberOfAttackers (r : ReadAaf n) {j : Fin n}
    (h : r.aaf.numberOfAttackers j ≤ intMax) :
    (r.numberOfAttackers j).toInt = r.aaf.numberOfAttackers j := by
  rw [r.attackers_eq]
  exact Int32.toInt_ofNat_of_le h

end ReadAaf

def i23Attack (n : ℕ) (row : List Char) : Option (Fin n × Fin n) :=
  let (trimmed, row) := trimwhitespace row
  if trimmed = [] then none
  else if "#".toList.isPrefixOf trimmed then none
  else do
    let (source, target) ← splitAtBlank row
    let idx1 ← i23Index n source
    let idx2 ← i23Index n target
    some (idx1, idx2)

/-- The attacks of the lines after the header, in the order of the file. -/
def i23Attacks (n : ℕ) (file : List Char) : List (Fin n × Fin n) :=
  match readHeader (getlines file) with
  | none => []
  | some (_, rows) => rows.filterMap (i23Attack n)

def attackLinesOn (n : ℕ) (file : List Char) (j : Fin n) : ℕ :=
  (i23Attacks n file).countP (·.2 = j)

theorem i23Row_eq_some {r r' : ReadAaf n} {row : List Char} (h : i23Row r row = some r') :
    r' = r.attackAll (i23Attack n row).toList := by
  unfold i23Row at h
  unfold i23Attack
  dsimp only at h ⊢
  split_ifs at h ⊢ with h₁ h₂
  · exact (Option.some.inj h).symm
  · exact (Option.some.inj h).symm
  · obtain ⟨⟨source, target⟩, hsplit, h⟩ := Option.bind_eq_some_iff.1 h
    obtain ⟨idx1, h1, h⟩ := Option.bind_eq_some_iff.1 h
    obtain ⟨idx2, h2, h⟩ := Option.bind_eq_some_iff.1 h
    simp [hsplit, h1, h2, ← Option.some.inj h]

theorem foldlM_i23Row_eq_some {rows : List (List Char)} {r r' : ReadAaf n}
    (h : rows.foldlM i23Row r = some r') : r' = r.attackAll (rows.filterMap (i23Attack n)) := by
  induction rows generalizing r with
  | nil => exact (Option.some.inj h).symm
  | cons row rows ih =>
    obtain ⟨r₁, hrow, hrest⟩ := Option.bind_eq_some_iff.1 h
    rw [ih hrest, i23Row_eq_some hrow]
    cases hi : i23Attack n row <;> simp [hi]

/-- No more arguments are read than an `int` can count. -/
theorem readFileI23_le_intMax {file : List Char} {r : ReadAaf n}
    (h : readFileI23 file = some ⟨n, r⟩) : n ≤ intMax := by
  obtain ⟨⟨number, rows⟩, -, h⟩ := Option.bind_eq_some_iff.1 h
  dsimp only at h
  split_ifs at h
  obtain ⟨r', -, h⟩ := Option.bind_eq_some_iff.1 h
  obtain ⟨rfl, -⟩ := Sigma.mk.inj (Option.some.inj h)
  have hle := Int32.toInt_le_intMax number
  omega

/-- What is read: the numbers as names, and the attacks of the file. -/
theorem readFileI23_eq_some {file : List Char} {r : ReadAaf n}
    (h : readFileI23 file = some ⟨n, r⟩) :
    r = (ReadAaf.start fun i : Fin n => i23Name i).attackAll (i23Attacks n file) := by
  obtain ⟨⟨number, rows⟩, hheader, h⟩ := Option.bind_eq_some_iff.1 h
  dsimp only at h
  split_ifs at h
  obtain ⟨r', hrows, h⟩ := Option.bind_eq_some_iff.1 h
  obtain ⟨rfl, hr⟩ := Sigma.mk.inj (Option.some.inj h)
  rw [← eq_of_heq hr, foldlM_i23Row_eq_some hrows, i23Attacks, hheader]

/-- An argument has as many attackers as there are lines that attack it. -/
theorem readFileI23_length_parents {file : List Char} {r : ReadAaf n}
    (h : readFileI23 file = some ⟨n, r⟩) (j : Fin n) :
    (r.aaf.parents j).length = attackLinesOn n file j := by
  rw [readFileI23_eq_some h, ReadAaf.attackAll_parents, attackLinesOn]
  simp [List.countP_eq_length_filter]

theorem i23Name_eq (idx : ℕ) : i23Name idx = toString (idx + 1) := by
  have hlen : (Nat.toDigits 10 (idx + 1)).length ≤ Nat.log 10 (idx + 1) + 1 :=
    (Nat.length_toDigits_le_iff (by decide) (Nat.succ_pos _)).2
      (Nat.lt_pow_succ_log_self (by decide) _)
  rw [i23Name, snprintf, Nat.add_sub_cancel (m := 1), List.take_of_length_le hlen,
    Nat.toString_eq_ofList_toDigits]

theorem readFileI23_names {file : List Char} {r : ReadAaf n}
    (h : readFileI23 file = some ⟨n, r⟩) (i : Fin n) :
    r.aaf.ids2arguments i = toString ((i : ℕ) + 1) := by
  rw [readFileI23_eq_some h, ReadAaf.attackAll_names, ReadAaf.start_names, i23Name_eq]

theorem tgfArguments_ne_nil {rows rest names : List (List Char)}
    (h : tgfArguments rows = some (names, rest)) : ∀ name ∈ names, name ≠ [] := by
  induction rows generalizing names with
  | nil => cases h
  | cons row rows ih =>
    rw [tgfArguments] at h
    dsimp only at h
    split_ifs at h with hblank hend
    · exact ih h
    · obtain ⟨rfl, -⟩ := Prod.mk.inj (Option.some.inj h)
      simp
    · obtain ⟨⟨names', rest'⟩, hrest, h⟩ := Option.bind_eq_some_iff.1 h
      obtain ⟨rfl, rfl⟩ := Prod.mk.inj (Option.some.inj h)
      rw [List.forall_mem_cons]
      exact ⟨hblank, ih hrest⟩

theorem tgfRow_names {r r' : ReadAaf n} {row : List Char} (h : tgfRow r row = some r') :
    r'.aaf.ids2arguments = r.aaf.ids2arguments := by
  unfold tgfRow at h
  dsimp only at h
  split_ifs at h
  · rw [Option.some.inj h]
  · rw [Option.some.inj h]
  · obtain ⟨⟨source, target⟩, -, h⟩ := Option.bind_eq_some_iff.1 h
    obtain ⟨idx1, -, h⟩ := Option.bind_eq_some_iff.1 h
    obtain ⟨idx2, -, h⟩ := Option.bind_eq_some_iff.1 h
    rw [← Option.some.inj h, ReadAaf.attack_names]

theorem foldlM_tgfRow_names {rows : List (List Char)} {r r' : ReadAaf n}
    (h : rows.foldlM tgfRow r = some r') : r'.aaf.ids2arguments = r.aaf.ids2arguments := by
  induction rows generalizing r with
  | nil => rw [Option.some.inj h]
  | cons row rows ih =>
    obtain ⟨r₁, hrow, hrest⟩ := Option.bind_eq_some_iff.1 h
    rw [ih hrest, tgfRow_names hrow]

theorem readFileTgf_name_ne_nil {file : List Char} {r : ReadAaf n}
    (h : readFileTgf file = some ⟨n, r⟩) (i : Fin n) : (r.aaf.ids2arguments i).toList ≠ [] := by
  obtain ⟨⟨names, rows⟩, hnames, h⟩ := Option.bind_eq_some_iff.1 h
  obtain ⟨r', hrows, h⟩ := Option.bind_eq_some_iff.1 h
  obtain ⟨rfl, hr⟩ := Sigma.mk.inj (Option.some.inj h)
  rw [← eq_of_heq hr, foldlM_tgfRow_names hrows, ReadAaf.start_names, String.toList_ofList]
  exact tgfArguments_ne_nil hnames _ (List.get_mem names i)

end TaasFudge
