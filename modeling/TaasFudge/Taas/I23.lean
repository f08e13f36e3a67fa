import TaasFudge.Taas.Witness

/-! # The ICCMA23 reader on written files

A file is written as lines: comments and blank lines, a header, then comments, blank lines and
attacks in any order. Reading it gives the framework with these attacks.
-/

namespace TaasFudge

variable {n : ℕ}

abbrev LineSpace := {space : List Char // ∀ c ∈ space, isspace c = true ∧ c ≠ '\n'}

abbrev LineText := {text : List Char // '\n' ∉ text}

inductive SkippedLine where
  | blank (space : LineSpace)
  | comment (space : LineSpace) (text : LineText)

inductive I23Line (n : ℕ) where
  | skipped (line : SkippedLine)
  | attack (source target : Fin n) (space : LineSpace)

def SkippedLine.text : SkippedLine → List Char
  | blank space => space
  | comment space text => space ++ '#' :: text

def I23Line.text : I23Line n → List Char
  | skipped line => line.text
  | attack source target space =>
    Nat.toDigits 10 (source + 1) ++ ' ' :: Nat.toDigits 10 (target + 1) ++ space

def headerText (n : ℕ) (space : LineSpace) : List Char :=
  "p af ".toList ++ Nat.toDigits 10 n ++ space

theorem headerText_eq (n : ℕ) (space : LineSpace) :
    headerText n space = ['p', ' ', 'a', 'f', ' '] ++ Nat.toDigits 10 n ++ space := rfl

/-- The file with these lines; it ends in a newline when the last of them is empty. -/
def i23File (before : List SkippedLine) (n : ℕ) (space : LineSpace) (lines : List (I23Line n)) :
    List Char :=
  ['\n'].intercalate (before.map SkippedLine.text ++ headerText n space :: lines.map I23Line.text)

def I23Line.attack? : I23Line n → Option (Fin n × Fin n)
  | skipped _ => none
  | attack source target _ => some (source, target)

theorem ne_nul_of_isspace {c : Char} (h : isspace c = true) : c ≠ Char.ofNat 0 := by
  rintro rfl
  exact absurd h (by decide)

theorem toNat_of_isDigit {c : Char} (h : c.isDigit = true) : 48 ≤ c.toNat ∧ c.toNat ≤ 57 := by
  simp only [Char.isDigit, Bool.and_eq_true, decide_eq_true_eq] at h
  exact h

theorem isspace_eq_false_of_isDigit {c : Char} (h : c.isDigit = true) : isspace c = false := by
  have hc := toNat_of_isDigit h
  have hne : c ≠ ' ' := by
    rintro rfl
    exact absurd h (by decide)
  have hrange : 9 ≤ c.toNat → 13 < c.toNat := by omega
  simpa [isspace, hne] using hrange

theorem isDigit_of_mem_toDigits {k : ℕ} {c : Char} (h : c ∈ Nat.toDigits 10 k) :
    c.isDigit = true := Nat.isDigit_of_mem_toDigits (by decide) le_rfl h

theorem notMem_toDigits {k : ℕ} {c : Char} (h : c.isDigit = false) : c ∉ Nat.toDigits 10 k := by
  intro hc
  rw [isDigit_of_mem_toDigits hc] at h
  cases h

theorem leadingNumber_toDigits (k : ℕ) : leadingNumber (Nat.toDigits 10 k) = k := by
  have hspace : (Nat.toDigits 10 k).dropWhile isspace = Nat.toDigits 10 k := by
    rw [List.dropWhile_eq_self_iff]
    intro hpos
    rw [isspace_eq_false_of_isDigit (isDigit_of_mem_toDigits (List.getElem_mem hpos))]
    exact Bool.false_ne_true
  have hvalue : leadingDigits (Nat.toDigits 10 k) = k := by
    rw [leadingDigits, List.takeWhile_eq_self_iff.2 fun c => isDigit_of_mem_toDigits,
      Nat.ofDigitChars_ten_toDigits]
  rw [leadingNumber, hspace]
  split
  · next digits hdigits =>
    exact absurd (hdigits ▸ List.mem_cons_self) (notMem_toDigits (k := k) (c := '-') (by decide))
  · next digits hdigits =>
    exact absurd (hdigits ▸ List.mem_cons_self) (notMem_toDigits (k := k) (c := '+') (by decide))
  · rw [hvalue]

theorem leadingNumber_blank (str : List Char) : leadingNumber (' ' :: str) = leadingNumber str := rfl

theorem toInt_atoi_of_le {str : List Char} {k : ℕ} (h : leadingNumber str = k) (hk : k ≤ intMax) :
    (atoi str).toInt = k := by
  have hmax : (intMax : ℤ) = 2147483647 := rfl
  have hclamp : max (-2 ^ 63) (min (2 ^ 63 - 1) (k : ℤ)) = k := by omega
  rw [atoi, h, hclamp]
  apply Int32.toInt_ofInt_of_bounds
  · omega
  · omega

/-- A decimal up to `INT_MAX` is read as its number. -/
theorem toInt_atoi_toDigits {k : ℕ} (h : k ≤ intMax) : (atoi (Nat.toDigits 10 k)).toInt = k :=
  toInt_atoi_of_le (leadingNumber_toDigits k) h

theorem newline_notMem_space (space : LineSpace) : '\n' ∉ space.1 := fun h => (space.2 _ h).2 rfl

theorem rdropWhile_append_of_pos {α : Type} {p : α → Bool} (xs : List α) {ys : List α}
    (h : ∀ y ∈ ys, p y = true) : (xs ++ ys).rdropWhile p = xs.rdropWhile p := by
  rw [List.rdropWhile, List.reverse_append, List.dropWhile_append_of_pos, List.rdropWhile]
  intro y hy
  exact h y (List.mem_reverse.1 hy)

theorem trimwhitespace_blank {space : List Char} (h : ∀ c ∈ space, isspace c = true) :
    (trimwhitespace space).1 = [] := by
  have hrest : space.dropWhile isspace = [] := List.dropWhile_eq_nil_iff.2 h
  rw [trimwhitespace, hrest]
  rfl

/-- White space at the end of a string that does not start or end with it. -/
theorem trimwhitespace_body {body space : List Char} (hne : body ≠ [])
    (hfirst : isspace (body.head hne) = false) (hlast : isspace (body.getLast hne) = false)
    (hspace : ∀ c ∈ space, isspace c = true) : trimwhitespace (body ++ space) = (body, body) := by
  have htrimmed : (body ++ space).rdropWhile isspace = body := by
    rw [rdropWhile_append_of_pos body hspace, List.rdropWhile_eq_self_iff]
    intro _
    rw [hlast]
    exact Bool.false_ne_true
  cases body with
  | nil => exact absurd rfl hne
  | cons c cs =>
    rw [List.head_cons] at hfirst
    have hdrop : (c :: cs ++ space).dropWhile isspace = c :: cs ++ space := by
      rw [List.cons_append, List.dropWhile_cons_of_neg (by rw [hfirst]; exact Bool.false_ne_true)]
    have htake : (c :: cs ++ space).takeWhile isspace = [] := by
      rw [List.cons_append, List.takeWhile_cons_of_neg (by rw [hfirst]; exact Bool.false_ne_true)]
    rw [trimwhitespace, hdrop]
    dsimp only
    rw [if_neg (by simp), htrimmed, htake, List.nil_append]

theorem trimwhitespace_comment {space text : List Char} (h : ∀ c ∈ space, isspace c = true) :
    (trimwhitespace (space ++ '#' :: text)).1 ≠ [] ∧
      "#".toList.isPrefixOf (trimwhitespace (space ++ '#' :: text)).1 = true := by
  have hdrop : (space ++ '#' :: text).dropWhile isspace = '#' :: text := by
    rw [List.dropWhile_append_of_pos h, List.dropWhile_cons_of_neg (by decide)]
  have htrimmed : (trimwhitespace (space ++ '#' :: text)).1 = ('#' :: text).rdropWhile isspace := by
    rw [trimwhitespace, hdrop]
    rfl
  have hne : ('#' :: text).rdropWhile isspace ≠ [] := by
    intro hnil
    exact absurd (List.rdropWhile_eq_nil_iff.1 hnil '#' List.mem_cons_self) (by decide)
  rw [htrimmed]
  refine ⟨hne, ?_⟩
  obtain ⟨rest, hrest⟩ := List.rdropWhile_prefix isspace (l := '#' :: text)
  cases hcs : ('#' :: text).rdropWhile isspace with
  | nil => exact absurd hcs hne
  | cons c cs =>
    rw [hcs, List.cons_append] at hrest
    rw [(List.cons.inj hrest).1]
    rfl

theorem fileRows_append_newline {line : List Char} (h : '\n' ∉ line) (rest : List Char) :
    fileRows (line ++ '\n' :: rest) = (line ++ ['\n']) :: fileRows rest := by
  induction line with
  | nil => rw [List.nil_append, fileRows, if_pos rfl, List.nil_append]
  | cons c line ih =>
    rw [List.mem_cons, not_or] at h
    rw [List.cons_append, fileRows, if_neg (Ne.symm h.1), ih h.2, List.cons_append]

theorem fileRows_line {line : List Char} (h : '\n' ∉ line) (hne : line ≠ []) :
    fileRows line = [line] := by
  induction line with
  | nil => exact absurd rfl hne
  | cons c line ih =>
    rw [List.mem_cons, not_or] at h
    rw [fileRows, if_neg (Ne.symm h.1)]
    by_cases hnil : line = []
    · rw [hnil]
      rfl
    · rw [ih h.2 hnil]

/-- What a reader gets of a line: the line with white space after it, before a NUL. -/
def RowOf (line row : List Char) : Prop :=
  ∃ ending, (∀ c ∈ ending, isspace c = true) ∧
    row = (line ++ ending).takeWhile (· ≠ Char.ofNat 0)

/-- The first line gives the first row, unless nothing follows and it is empty. -/
theorem getlines_cons {line : List Char} (h : '\n' ∉ line) (lines : List (List Char)) :
    (line = [] ∧ lines = [] ∧ getlines (['\n'].intercalate (line :: lines)) = []) ∨
      ∃ row, RowOf line row ∧ getlines (['\n'].intercalate (line :: lines)) =
        row :: getlines (['\n'].intercalate lines) := by
  cases lines with
  | nil =>
    rw [List.intercalate_singleton]
    by_cases hnil : line = []
    · rw [hnil]
      exact .inl ⟨rfl, rfl, rfl⟩
    · refine .inr ⟨_, ⟨[], nofun, rfl⟩, ?_⟩
      rw [getlines, fileRows_line h hnil, List.append_nil]
      rfl
  | cons next lines =>
    refine .inr ⟨_, ⟨['\n'], by simp [isspace], rfl⟩, ?_⟩
    rw [List.intercalate_cons_cons, List.append_assoc, List.singleton_append, getlines,
      fileRows_append_newline h, List.map_cons]
    rfl

theorem getlines_cons_of_ne {line : List Char} (h : '\n' ∉ line) {lines : List (List Char)}
    (hne : lines ≠ []) : ∃ row, RowOf line row ∧
      getlines (['\n'].intercalate (line :: lines)) = row :: getlines (['\n'].intercalate lines) := by
  cases getlines_cons h lines with
  | inl hnil => exact absurd hnil.2.1 hne
  | inr hrow => exact hrow

theorem exists_row_of_line {lines : List (List Char)} (hlines : ∀ line ∈ lines, '\n' ∉ line)
    {line : List Char} (hmem : line ∈ lines) (hne : line ≠ []) :
    ∃ row ∈ getlines (['\n'].intercalate lines), RowOf line row := by
  induction lines with
  | nil => cases hmem
  | cons first lines ih =>
    rw [List.forall_mem_cons] at hlines
    rcases getlines_cons hlines.1 lines with ⟨hfirst, hnil, -⟩ | ⟨row, hrow, hrows⟩
    · rw [hfirst, hnil, List.mem_singleton] at hmem
      exact absurd hmem hne
    · rw [hrows]
      rcases List.mem_cons.1 hmem with rfl | hmem
      · exact ⟨row, List.mem_cons_self, hrow⟩
      · obtain ⟨row', hrow', hof⟩ := ih hlines.2 hmem
        exact ⟨row', List.mem_cons_of_mem row hrow', hof⟩

/-- Lines whose rows have an effect each: an empty last line, which gives no row, has none. -/
theorem foldlM_getlines {ι σ : Type} {P : σ → Prop} {text : ι → List Char}
    {f : σ → List Char → Option σ} {g : σ → ι → σ} (hline : ∀ x, '\n' ∉ text x)
    (hkeep : ∀ s x, P s → P (g s x)) (hnil : ∀ s x, text x = [] → g s x = s)
    (hstep : ∀ s x row, P s → RowOf (text x) row → f s row = some (g s x))
    (xs : List ι) {s : σ} (hs : P s) :
    (getlines (['\n'].intercalate (xs.map text))).foldlM f s = some (xs.foldl g s) := by
  induction xs generalizing s with
  | nil => rfl
  | cons x xs ih =>
    rw [List.map_cons]
    rcases getlines_cons (hline x) (xs.map text) with ⟨hx, hxs, hnone⟩ | ⟨row, hrow, hrows⟩
    · rw [List.map_eq_nil_iff] at hxs
      rw [hnone, hxs, List.foldl_cons, hnil s x hx]
      rfl
    · rw [hrows, List.foldlM_cons, hstep s x row hs hrow]
      exact ih (hkeep s x hs)

theorem SkippedLine.newline_notMem (line : SkippedLine) : '\n' ∉ line.text := by
  cases line with
  | blank space => exact newline_notMem_space space
  | comment space text =>
    rw [SkippedLine.text, List.mem_append, List.mem_cons]
    rintro (h | h | h)
    · exact newline_notMem_space space h
    · exact absurd h (by decide)
    · exact text.2 h

theorem I23Line.newline_notMem (line : I23Line n) : '\n' ∉ line.text := by
  cases line with
  | skipped line => exact line.newline_notMem
  | attack source target space =>
    simp only [I23Line.text, List.mem_append, List.mem_cons]
    rintro ((h | h | h) | h)
    · exact notMem_toDigits (by decide) h
    · exact absurd h (by decide)
    · exact notMem_toDigits (by decide) h
    · exact (space.2 _ h).2 rfl

/-- The row of a text without NUL and white space after it. -/
theorem RowOf.eq {body row : List Char} {space : LineSpace} (h : RowOf (body ++ space) row)
    (hbody : Char.ofNat 0 ∉ body) :
    ∃ after, (∀ c ∈ after, isspace c = true) ∧ row = body ++ after := by
  obtain ⟨ending, hending, rfl⟩ := h
  have hafter : ∀ c ∈ space.1 ++ ending, isspace c = true := by
    intro c hc
    rcases List.mem_append.1 hc with hc | hc
    · exact (space.2 c hc).1
    · exact hending c hc
  refine ⟨space.1 ++ ending, hafter, ?_⟩
  rw [List.append_assoc, List.takeWhile_eq_self_iff]
  intro c hc
  rw [decide_eq_true_iff]
  rcases List.mem_append.1 hc with hc | hc
  · rintro rfl
    exact hbody hc
  · exact ne_nul_of_isspace (hafter c hc)

/-- The row of a line that is not empty and not blank at either end. -/
theorem RowOf.trim {line row : List Char} (h : RowOf line row) (hnul : Char.ofNat 0 ∉ line)
    (hne : line ≠ []) (hfirst : isspace (line.head hne) = false)
    (hlast : isspace (line.getLast hne) = false) : trimwhitespace row = (line, line) := by
  have hspace : RowOf (line ++ (⟨[], nofun⟩ : LineSpace).1) row := by rwa [List.append_nil]
  obtain ⟨after, hafter, rfl⟩ := RowOf.eq hspace hnul
  exact trimwhitespace_body hne hfirst hlast hafter

theorem RowOf.trim_blank {space : LineSpace} {row : List Char} (h : RowOf space.1 row) :
    (trimwhitespace row).1 = [] := by
  obtain ⟨after, hafter, rfl⟩ := RowOf.eq (show RowOf (([] : List Char) ++ space) row from h)
    List.not_mem_nil
  exact trimwhitespace_blank hafter

/-- A skipped line is blank or a comment after trimming. -/
theorem SkippedLine.trimmed (line : SkippedLine) {row : List Char} (h : RowOf line.text row) :
    (trimwhitespace row).1 = [] ∨ ((trimwhitespace row).1 ≠ [] ∧
      "#".toList.isPrefixOf (trimwhitespace row).1 = true) := by
  cases line with
  | blank space =>
    obtain ⟨after, hafter, rfl⟩ := RowOf.eq (show RowOf (([] : List Char) ++ space) row from h)
      List.not_mem_nil
    exact .inl (trimwhitespace_blank hafter)
  | comment space text =>
    obtain ⟨ending, -, rfl⟩ := h
    have hrow : (SkippedLine.text (comment space text) ++ ending).takeWhile (· ≠ Char.ofNat 0) =
        space ++ '#' :: (text.1 ++ ending).takeWhile (· ≠ Char.ofNat 0) := by
      rw [SkippedLine.text, List.append_assoc, List.takeWhile_append_of_pos, List.cons_append,
        List.takeWhile_cons_of_pos (by decide)]
      intro c hc
      exact decide_eq_true (ne_nul_of_isspace (space.2 c hc).1)
    rw [hrow]
    exact .inr (trimwhitespace_comment fun c hc => (space.2 c hc).1)

theorem i23Row_skipped (r : ReadAaf n) (line : SkippedLine) {row : List Char}
    (h : RowOf line.text row) : i23Row r row = some r := by
  rw [i23Row]
  dsimp only
  rcases line.trimmed h with hnil | ⟨hne, hcomment⟩
  · rw [if_pos hnil]
  · rw [if_neg hne, if_pos hcomment]

theorem readHeader_skipped (line : SkippedLine) {row : List Char} (h : RowOf line.text row)
    (rows : List (List Char)) : readHeader (row :: rows) = readHeader rows := by
  rw [readHeader]
  rcases line.trimmed h with hnil | ⟨-, hcomment⟩
  · rw [hnil, if_neg (by decide), if_neg (by decide)]
  · rw [if_pos hcomment]

/-- A decimal between 1 and `n` is read as an index. -/
theorem i23Index_toDigits (hn : n ≤ intMax) (i : Fin n) :
    i23Index n (Nat.toDigits 10 (i + 1)) = some i := by
  have hvalue : (atoi (Nat.toDigits 10 (i + 1))).toInt - 1 = (i : ℕ) := by
    rw [toInt_atoi_toDigits (by omega)]
    push_cast
    omega
  rw [i23Index, dif_pos]
  · simp only [hvalue, Int.toNat_natCast]
  · rw [hvalue, Int.toNat_natCast]
    exact ⟨by omega, i.isLt⟩

theorem splitAtBlank_append {source : List Char} (h : ' ' ∉ source)
    (hlength : source.length ≤ intMax) (target : List Char) :
    splitAtBlank (source ++ ' ' :: target) = some (source, target) := by
  have hsource : ∀ c ∈ source, decide (c ≠ ' ') = true := by
    intro c hc
    apply decide_eq_true
    rintro rfl
    exact h hc
  have hdrop : (source ++ ' ' :: target).dropWhile (· ≠ ' ') = ' ' :: target := by
    rw [List.dropWhile_append_of_pos hsource, List.dropWhile_cons_of_neg (by decide)]
  have htake : (source ++ ' ' :: target).takeWhile (· ≠ ' ') = source := by
    rw [List.takeWhile_append_of_pos hsource, List.takeWhile_cons_of_neg (by decide),
      List.append_nil]
  rw [splitAtBlank, hdrop, htake]
  exact if_pos hlength

theorem splitAtBlank_eq_some_iff {row source target : List Char} :
    splitAtBlank row = some (source, target) ↔
      row = source ++ ' ' :: target ∧ ' ' ∉ source ∧ source.length ≤ intMax := by
  constructor
  · intro h
    rw [splitAtBlank] at h
    split at h
    · cases h
    · next c cs hdrop =>
      dsimp only at h
      split_ifs at h with hlength
      obtain ⟨rfl, rfl⟩ := Prod.mk.inj (Option.some.inj h)
      have hne : row.dropWhile (· ≠ ' ') ≠ [] := by
        rw [hdrop]
        exact List.cons_ne_nil _ _
      have hc : c = ' ' := by
        have hhead := List.head_dropWhile_not (· ≠ ' ') hne
        simp only [hdrop, List.head_cons] at hhead
        exact of_not_not (of_decide_eq_false hhead)
      subst hc
      refine ⟨?_, fun hmem => ?_, hlength⟩
      · rw [← hdrop, List.takeWhile_append_dropWhile]
      · have hne := List.mem_takeWhile_imp hmem
        exact of_decide_eq_true hne rfl
  · rintro ⟨rfl, hsource, hlength⟩
    exact splitAtBlank_append hsource hlength target

theorem length_toDigits_le_intMax {k : ℕ} (h : k ≤ intMax) :
    (Nat.toDigits 10 k).length ≤ intMax := by
  have hten : (Nat.toDigits 10 k).length ≤ 10 :=
    (Nat.length_toDigits_le_iff (by decide) (by decide)).2 (by rw [intMax] at h; omega)
  exact hten.trans (by decide)

/-- The last character of a text that ends in a decimal. -/
theorem isspace_getLast_toDigits (xs : List Char) (k : ℕ) (hne : xs ++ Nat.toDigits 10 k ≠ []) :
    isspace ((xs ++ Nat.toDigits 10 k).getLast hne) = false := by
  rw [List.getLast_append_of_ne_nil _ Nat.toDigits_ne_nil]
  exact isspace_eq_false_of_isDigit (isDigit_of_mem_toDigits (List.getLast_mem _))

theorem i23Row_attack (hn : n ≤ intMax) (r : ReadAaf n) (source target : Fin n)
    (space : LineSpace) {row : List Char}
    (h : RowOf (I23Line.attack source target space).text row) :
    i23Row r row = some (r.attack source target) := by
  have hnul : Char.ofNat 0 ∉ Nat.toDigits 10 (source + 1) ++ ' ' :: Nat.toDigits 10 (target + 1) := by
    simp only [List.mem_append, List.mem_cons]
    rintro (h | h | h)
    · exact notMem_toDigits (by decide) h
    · exact absurd h (by decide)
    · exact notMem_toDigits (by decide) h
  obtain ⟨after, hafter, rfl⟩ := RowOf.eq h hnul
  obtain ⟨d, ds, hdigits⟩ := List.exists_cons_of_ne_nil (Nat.toDigits_ne_nil (n := source + 1)
    (b := 10))
  have hd : d.isDigit = true := by
    apply isDigit_of_mem_toDigits (k := source + 1)
    rw [hdigits]
    exact List.mem_cons_self
  have htrim : trimwhitespace
      (Nat.toDigits 10 (source + 1) ++ ' ' :: Nat.toDigits 10 (target + 1) ++ after) =
        (Nat.toDigits 10 (source + 1) ++ ' ' :: Nat.toDigits 10 (target + 1),
          Nat.toDigits 10 (source + 1) ++ ' ' :: Nat.toDigits 10 (target + 1)) := by
    apply trimwhitespace_body (by simp) _ _ hafter
    · simp only [hdigits, List.cons_append, List.head_cons]
      exact isspace_eq_false_of_isDigit hd
    · have hsplit : Nat.toDigits 10 (source + 1) ++ ' ' :: Nat.toDigits 10 (target + 1) =
          (Nat.toDigits 10 (source + 1) ++ [' ']) ++ Nat.toDigits 10 (target + 1) := by simp
      simp only [hsplit]
      exact isspace_getLast_toDigits _ _ (by simp)
  have hcomment : "#".toList.isPrefixOf
      (Nat.toDigits 10 (source + 1) ++ ' ' :: Nat.toDigits 10 (target + 1)) = false := by
    have hne : '#' ≠ d := by
      rintro rfl
      exact absurd hd (by decide)
    rw [hdigits, List.cons_append]
    simp [List.isPrefixOf, hne]
  rw [i23Row, htrim]
  dsimp only
  rw [if_neg (by simp), hcomment, splitAtBlank_append (notMem_toDigits (by decide))
    (length_toDigits_le_intMax (by omega))]
  simp [i23Index_toDigits hn]

theorem i23Row_line (hn : n ≤ intMax) (r : ReadAaf n) (line : I23Line n) {row : List Char}
    (h : RowOf line.text row) : i23Row r row = some (r.attackAll line.attack?.toList) := by
  cases line with
  | skipped line => exact i23Row_skipped r line h
  | attack source target space => exact i23Row_attack hn r source target space h

theorem readHeader_header {n : ℕ} (hn : n ≤ intMax) (space : LineSpace) {row : List Char}
    (h : RowOf (headerText n space) row) (rows : List (List Char)) :
    ∃ number : Int32, number.toInt = n ∧ readHeader (row :: rows) = some (number, rows) := by
  rw [headerText_eq] at h
  have hnul : Char.ofNat 0 ∉ ['p', ' ', 'a', 'f', ' '] ++ Nat.toDigits 10 n := by
    rw [List.mem_append]
    rintro (h | h)
    · exact absurd h (by decide)
    · exact notMem_toDigits (by decide) h
  obtain ⟨after, hafter, rfl⟩ := RowOf.eq h hnul
  have htrim : trimwhitespace (['p', ' ', 'a', 'f', ' '] ++ Nat.toDigits 10 n ++ after) =
      (['p', ' ', 'a', 'f', ' '] ++ Nat.toDigits 10 n,
        ['p', ' ', 'a', 'f', ' '] ++ Nat.toDigits 10 n) := by
    apply trimwhitespace_body (by simp) _ _ hafter
    · rfl
    · exact isspace_getLast_toDigits _ _ (by simp)
  have hvalue : leadingNumber ((['p', ' ', 'a', 'f', ' '] ++ Nat.toDigits 10 n).drop 4) = n :=
    (leadingNumber_blank _).trans (leadingNumber_toDigits n)
  refine ⟨_, toInt_atoi_of_le hvalue hn, ?_⟩
  rw [readHeader, htrim]
  dsimp only
  rw [if_neg (by simp [List.isPrefixOf]), if_pos (by simp [List.isPrefixOf])]

theorem I23Line.attack?_of_text_eq_nil {line : I23Line n} (h : line.text = []) :
    line.attack? = none := by
  cases line with
  | skipped line => rfl
  | attack source target space => simp [I23Line.text] at h

theorem ReadAaf.foldl_attackAll {ι : Type} (attack? : ι → Option (Fin n × Fin n)) (xs : List ι)
    (r : ReadAaf n) : xs.foldl (fun r x => r.attackAll (attack? x).toList) r =
      r.attackAll (xs.filterMap attack?) := by
  induction xs generalizing r with
  | nil => rfl
  | cons x xs ih =>
    rw [List.foldl_cons, ih]
    cases h : attack? x <;> simp [h]

/-- Every attack line is entered, in the order of the lines. -/
theorem foldlM_i23Row_lines (hn : n ≤ intMax) (lines : List (I23Line n)) (r : ReadAaf n) :
    (getlines (['\n'].intercalate (lines.map I23Line.text))).foldlM i23Row r =
      some (r.attackAll (lines.filterMap I23Line.attack?)) := by
  have hrun := foldlM_getlines (P := fun _ : ReadAaf n => True) (f := i23Row)
    (g := fun r line => r.attackAll line.attack?.toList) I23Line.newline_notMem (fun _ _ _ => trivial)
    (fun r line hnil => by rw [I23Line.attack?_of_text_eq_nil hnil]; rfl)
    (fun r line row _ hrow => i23Row_line hn r line hrow) lines (s := r) trivial
  rw [hrun, ReadAaf.foldl_attackAll]

/-- The lines before the header are passed over, the rows after it remain. -/
theorem readHeader_i23File (hn : n ≤ intMax) (before : List SkippedLine) (space : LineSpace)
    (lines : List (I23Line n)) : ∃ number : Int32, number.toInt = n ∧
      readHeader (getlines (i23File before n space lines)) =
        some (number, getlines (['\n'].intercalate (lines.map I23Line.text))) := by
  rw [i23File]
  induction before with
  | nil =>
    have hheader : '\n' ∉ headerText n space := by
      simp only [headerText_eq, List.mem_append]
      rintro ((h | h) | h)
      · exact absurd h (by decide)
      · exact notMem_toDigits (by decide) h
      · exact (space.2 _ h).2 rfl
    rw [List.map_nil, List.nil_append]
    rcases getlines_cons hheader (lines.map I23Line.text) with ⟨hnil, -, -⟩ | ⟨row, hrow, hrows⟩
    · simp [headerText_eq] at hnil
    · rw [hrows]
      exact readHeader_header hn space hrow _
  | cons line before ih =>
    rw [List.map_cons, List.cons_append]
    rcases getlines_cons line.newline_notMem
        (before.map SkippedLine.text ++ headerText n space :: lines.map I23Line.text) with
      ⟨-, hrest, -⟩ | ⟨row, hrow, hrows⟩
    · simp at hrest
    · rw [hrows, readHeader_skipped line hrow]
      exact ih

theorem readFileI23_i23File (hn : n ≤ intMax) (before : List SkippedLine) (space : LineSpace)
    (lines : List (I23Line n)) : readFileI23 (i23File before n space lines) =
      some ⟨n, (ReadAaf.start fun i : Fin n => i23Name i).attackAll
        (lines.filterMap I23Line.attack?)⟩ := by
  obtain ⟨number, hnumber, hheader⟩ := readHeader_i23File hn before space lines
  have hnat : ¬ number.toInt < 0 := by omega
  have htoNat : number.toInt.toNat = n := by omega
  subst htoNat
  rw [readFileI23, hheader]
  have hrows := foldlM_i23Row_lines hn lines
    (ReadAaf.start fun i : Fin number.toInt.toNat => i23Name i)
  change (if number.toInt < 0 then none else do
    let r ← (getlines (['\n'].intercalate (lines.map I23Line.text))).foldlM i23Row
      (ReadAaf.start fun i : Fin number.toInt.toNat => i23Name i)
    some (⟨number.toInt.toNat, r⟩ : Σ n, ReadAaf n)) = _
  rw [if_neg hnat, hrows]
  rfl

theorem ReadAaf.initial_attackAll (ids2arguments : Fin n → String) (attacks : List (Fin n × Fin n))
    (j : Fin n) : ((ReadAaf.start ids2arguments).attackAll attacks).aaf.initial.get j = true ↔
      ∀ a ∈ attacks, a.2 ≠ j := by
  rw [AAF.initial_iff, ReadAaf.attackAll_parents, ReadAaf.start_parents, List.append_nil,
    List.reverse_eq_nil_iff, List.map_eq_nil_iff, List.filter_eq_nil_iff]
  simp only [decide_eq_true_eq, ne_eq]

theorem ReadAaf.loops_attackAll (ids2arguments : Fin n → String) (attacks : List (Fin n × Fin n))
    (j : Fin n) : ((ReadAaf.start ids2arguments).attackAll attacks).loops.get j = true ↔
      (j, j) ∈ attacks := by
  have hstart : (ReadAaf.start ids2arguments).loops.get j = false :=
    BitSet.get_unsetAll _ (Nat.le_of_lt j.isLt)
  rw [ReadAaf.attackAll_loops, hstart]
  exact or_iff_right Bool.false_ne_true

/-- The fields of the framework with these names and attacks: names and indices are inverse, children
and parents list the attacks in reverse order with repetitions, and the counters and bits agree with
them. -/
structure ReadAaf.Describes (r : ReadAaf n) (names : Fin n → String)
    (attacks : List (Fin n × Fin n)) : Prop where
  ids2arguments : r.aaf.ids2arguments = names
  arguments2ids : ∀ name i, r.aaf.arguments2ids name = some i ↔ names i = name
  children : ∀ i, r.aaf.children i = ((attacks.filter (·.1 = i)).map Prod.snd).reverse
  parents : ∀ j, r.aaf.parents j = ((attacks.filter (·.2 = j)).map Prod.fst).reverse
  numberOfAttackers : ∀ j, (r.numberOfAttackers j).toInt = (r.aaf.parents j).length
  numberOfAttacks : r.numberOfAttacks.toInt = attacks.length
  initial : ∀ j : Fin n, r.aaf.initial.get j = true ↔ ∀ a ∈ attacks, a.2 ≠ j
  loops : ∀ j : Fin n, r.loops.get j = true ↔ (j, j) ∈ attacks

/-- Attacks are entered rightly as long as they can be counted. -/
theorem ReadAaf.describes_attackAll {names : Fin n → String} (hnames : Function.Injective names)
    {attacks : List (Fin n × Fin n)} (hattacks : attacks.length ≤ intMax) :
    ((ReadAaf.start names).attackAll attacks).Describes names attacks := by
  have hnumber : ((ReadAaf.start names).attackAll attacks).aaf.numberOfAttacks = attacks.length :=
    (attackAll_numberOfAttacks _ _).trans (Nat.zero_add _)
  have hids : ((ReadAaf.start names).attackAll attacks).aaf.ids2arguments = names :=
    attackAll_names _ _
  have hparents (j : Fin n) : ((ReadAaf.start names).attackAll attacks).aaf.parents j =
      ((attacks.filter (·.2 = j)).map Prod.fst).reverse :=
    (attackAll_parents _ _ j).trans (List.append_nil _)
  constructor
  · exact hids
  · intro name i
    rw [arguments2ids_eq_some, hids]
    rwa [hids]
  · intro i
    exact (attackAll_children _ _ i).trans (List.append_nil _)
  · exact hparents
  · intro j
    rw [toInt_numberOfAttackers, AAF.attackers_eq]
    rw [AAF.attackers_eq, hparents, List.length_reverse, List.length_map]
    exact (List.length_filter_le _ _).trans hattacks
  · rw [(toInt_numberOfAttacks_eq_iff _).2 (hnumber.trans_le hattacks), hnumber]
  · exact initial_attackAll names attacks
  · exact loops_attackAll names attacks

/-- The framework of the file is read, with the decimals from 1 to `n` as names, exactly if its
arguments and its attacks can be counted by an `int`. -/
theorem readFileI23_builds_iff (before : List SkippedLine) (n : ℕ) (space : LineSpace)
    (lines : List (I23Line n)) :
    (∃ r : ReadAaf n, readFileI23 (i23File before n space lines) = some ⟨n, r⟩ ∧
      r.Describes (fun i : Fin n => toString ((i : ℕ) + 1)) (lines.filterMap I23Line.attack?)) ↔
    n ≤ intMax ∧ (lines.filterMap I23Line.attack?).length ≤ intMax := by
  constructor
  · rintro ⟨r, hread, hr⟩
    refine ⟨readFileI23_le_intMax hread, ?_⟩
    have hle := Int32.toInt_le_intMax r.numberOfAttacks
    rw [hr.numberOfAttacks] at hle
    exact Int.ofNat_le.1 hle
  · rintro ⟨hn, hattacks⟩
    refine ⟨_, readFileI23_i23File hn before space lines, ?_⟩
    have hnames : (fun i : Fin n => i23Name i) = fun i : Fin n => toString ((i : ℕ) + 1) :=
      funext fun i => i23Name_eq i
    rw [hnames]
    exact ReadAaf.describes_attackAll argNumber_injective hattacks

/-- The number in the header is cut down to an `int`. -/
theorem readFileI23_largeHeader :
    i23File [] 4294967298 ⟨[], nofun⟩ [] = "p af 4294967298".toList ∧
    readFileI23 "p af 4294967298".toList =
      some ⟨2, ReadAaf.start fun i : Fin 2 => i23Name i⟩ ∧
    ¬ ∃ r : ReadAaf 4294967298, readFileI23 (i23File [] 4294967298 ⟨[], nofun⟩ []) =
        some ⟨4294967298, r⟩ ∧
      r.Describes (fun i : Fin 4294967298 => toString ((i : ℕ) + 1)) [] := by
  refine ⟨by decide, rfl, ?_⟩
  rintro ⟨r, hread, -⟩
  exact absurd (readFileI23_le_intMax hread) (by decide)

end TaasFudge
