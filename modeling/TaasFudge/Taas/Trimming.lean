import TaasFudge.Taas.Tgf

/-! # Padded lines

Spaces and tabs are added at the beginning and the end of lines. `trimwhitespace` returns a string
without them, but what it leaves in the row still starts with those at the beginning.
-/

namespace TaasFudge

theorem dropWhile_append_of_ne_nil {p : Char → Bool} {xs : List Char} (h : xs.dropWhile p ≠ [])
    (ys : List Char) : (xs ++ ys).dropWhile p = xs.dropWhile p ++ ys ∧
      (xs ++ ys).takeWhile p = xs.takeWhile p := by
  induction xs with
  | nil => exact absurd rfl h
  | cons x xs ih =>
    by_cases hx : p x = true
    · rw [List.dropWhile_cons_of_pos hx] at h
      obtain ⟨hdrop, htake⟩ := ih h
      rw [List.cons_append, List.dropWhile_cons_of_pos hx, List.dropWhile_cons_of_pos hx,
        List.takeWhile_cons_of_pos hx, List.takeWhile_cons_of_pos hx, hdrop, htake]
      exact ⟨rfl, rfl⟩
    · rw [List.cons_append, List.dropWhile_cons_of_neg hx, List.dropWhile_cons_of_neg hx,
        List.takeWhile_cons_of_neg hx, List.takeWhile_cons_of_neg hx]
      exact ⟨rfl, rfl⟩

theorem trimwhitespace_eq_nil_iff {str : List Char} :
    (trimwhitespace str).1 = [] ↔ str.dropWhile isspace = [] := by
  rw [trimwhitespace]
  dsimp only
  split_ifs with h
  · exact Iff.rfl
  · refine iff_of_false ?_ h
    obtain ⟨c, cs, hcs⟩ := List.exists_cons_of_ne_nil h
    have hc := List.head_dropWhile_not isspace h
    simp only [hcs, List.head_cons] at hc
    intro hnil
    rw [hcs, List.rdropWhile_eq_nil_iff] at hnil
    rw [hnil c List.mem_cons_self] at hc
    cases hc

/-- White space at the end is cut off, white space at the beginning remains in the row. -/
theorem trimwhitespace_pad {before after : List Char} (hbefore : ∀ c ∈ before, isspace c = true)
    (hafter : ∀ c ∈ after, isspace c = true) (str : List Char) :
    (trimwhitespace (before ++ str ++ after)).1 = (trimwhitespace str).1 ∧
      ((trimwhitespace str).1 ≠ [] →
        (trimwhitespace (before ++ str ++ after)).2 = before ++ (trimwhitespace str).2) := by
  rw [List.append_assoc]
  by_cases hnil : str.dropWhile isspace = []
  · have hall : ∀ c ∈ before ++ (str ++ after), isspace c = true := by
      intro c hc
      rcases List.mem_append.1 hc with hc | hc
      · exact hbefore c hc
      · rcases List.mem_append.1 hc with hc | hc
        · exact List.dropWhile_eq_nil_iff.1 hnil c hc
        · exact hafter c hc
    have hstr := trimwhitespace_eq_nil_iff.2 hnil
    rw [trimwhitespace_blank hall, hstr]
    exact ⟨rfl, fun h => absurd rfl h⟩
  · obtain ⟨hdrop, htake⟩ := dropWhile_append_of_ne_nil hnil after
    have hdrop' : (before ++ (str ++ after)).dropWhile isspace = str.dropWhile isspace ++ after := by
      rw [List.dropWhile_append_of_pos hbefore, hdrop]
    have htake' : (before ++ (str ++ after)).takeWhile isspace =
        before ++ str.takeWhile isspace := by
      rw [List.takeWhile_append_of_pos hbefore, htake]
    rw [trimwhitespace, trimwhitespace, hdrop', htake']
    dsimp only
    rw [if_neg (by simp [hnil]), if_neg hnil, rdropWhile_append_of_pos _ hafter]
    exact ⟨rfl, fun _ => List.append_assoc _ _ _⟩

/-- The string of a line, which ends before a NUL. -/
def cString (line : List Char) : List Char := line.takeWhile (· ≠ Char.ofNat 0)

def trimmed (line : List Char) : List Char := (trimwhitespace (cString line)).1

/-- What the row of a line that is not blank holds after trimming: this is what is scanned. -/
def scanned (line : List Char) : List Char := (trimwhitespace (cString line)).2

theorem cString_append {before after : List Char} (line : List Char)
    (hbefore : ∀ c ∈ before, isspace c = true) (hafter : ∀ c ∈ after, isspace c = true) :
    ∃ ending, (∀ c ∈ ending, isspace c = true) ∧
      cString (before ++ line ++ after) = before ++ cString line ++ ending := by
  have hpos : ∀ c ∈ before, decide (c ≠ Char.ofNat 0) = true := fun c hc =>
    decide_eq_true (ne_nul_of_isspace (hbefore c hc))
  rw [cString, List.append_assoc, List.takeWhile_append_of_pos hpos, List.takeWhile_append]
  split_ifs with hlength
  · refine ⟨after.takeWhile (· ≠ Char.ofNat 0), fun c hc => ?_, ?_⟩
    · exact hafter c ((List.takeWhile_prefix _).mem hc)
    · have hline : cString line = line :=
        List.Sublist.eq_of_length (List.takeWhile_prefix _).sublist hlength
      rw [hline, List.append_assoc]
  · exact ⟨[], List.forall_mem_nil _, by rw [List.append_nil]; rfl⟩

/-- Padding a line changes only the beginning of what is scanned. -/
theorem trimmed_pad {before line after : List Char} (hbefore : ∀ c ∈ before, isspace c = true)
    (hafter : ∀ c ∈ after, isspace c = true) : trimmed (before ++ line ++ after) = trimmed line ∧
      (trimmed line ≠ [] → scanned (before ++ line ++ after) = before ++ scanned line) := by
  obtain ⟨ending, hending, heq⟩ := cString_append line hbefore hafter
  rw [trimmed, scanned, heq]
  exact trimwhitespace_pad hbefore hending _

theorem RowOf.trimmed {line row : List Char} (h : RowOf line row) :
    (trimwhitespace row).1 = trimmed line ∧
      (TaasFudge.trimmed line ≠ [] → (trimwhitespace row).2 = scanned line) := by
  obtain ⟨ending, hending, rfl⟩ := h
  obtain ⟨ending', hending', heq⟩ := cString_append line (List.forall_mem_nil _) hending
  rw [List.nil_append, List.nil_append] at heq
  have hpad := trimwhitespace_pad (List.forall_mem_nil _) hending' (cString line)
  rw [List.nil_append, ← heq] at hpad
  exact hpad

abbrev Pad := {pad : List Char // ∀ c ∈ pad, c = ' ' ∨ c = '\t'}

theorem Pad.isspace (pad : Pad) : ∀ c ∈ pad.1, TaasFudge.isspace c = true := by
  intro c hc
  rcases pad.2 c hc with rfl | rfl
  · decide
  · decide

/-- A line of a file, and what is added at its beginning and at its end. -/
structure PaddedLine where
  before : Pad
  line : LineText
  after : Pad

def PaddedLine.text (p : PaddedLine) : List Char := p.before.1 ++ p.line.1 ++ p.after.1

def original (lines : List PaddedLine) : List Char :=
  ['\n'].intercalate (lines.map fun p => p.line.1)

def padded (lines : List PaddedLine) : List Char := ['\n'].intercalate (lines.map PaddedLine.text)

theorem PaddedLine.trimmed_text (p : PaddedLine) : trimmed p.text = trimmed p.line :=
  (trimmed_pad p.before.isspace p.after.isspace).1

theorem PaddedLine.scanned_text (p : PaddedLine) (h : trimmed p.line ≠ []) :
    scanned p.text = p.before.1 ++ scanned p.line :=
  (trimmed_pad p.before.isspace p.after.isspace).2 h

theorem PaddedLine.newline_notMem_text (p : PaddedLine) : '\n' ∉ p.text := by
  have hpad (pad : Pad) : '\n' ∉ pad.1 := by
    intro h
    exact absurd (pad.2 _ h) (by decide)
  rw [PaddedLine.text, List.mem_append, List.mem_append]
  rintro ((h | h) | h)
  · exact hpad p.before h
  · exact p.line.2 h
  · exact hpad p.after h

structure Renders (g : PaddedLine → List Char) : Prop where
  newline : ∀ p, '\n' ∉ g p
  trimmed : ∀ p, trimmed (g p) = TaasFudge.trimmed p.line

theorem renders_line : Renders fun p => p.line.1 := ⟨fun p => p.line.2, fun _ => rfl⟩

theorem renders_text : Renders PaddedLine.text :=
  ⟨PaddedLine.newline_notMem_text, PaddedLine.trimmed_text⟩

/-- A line gives a row that trims to the same string, unless it is the last one and empty. -/
theorem Renders.rows_cons {g : PaddedLine → List Char} (hg : Renders g) (p : PaddedLine)
    (lines : List PaddedLine) :
    (lines = [] ∧ cString (g p) = [] ∧ TaasFudge.trimmed p.line = [] ∧
      getlines (['\n'].intercalate ((p :: lines).map g)) = []) ∨
    ∃ row, RowOf (g p) row ∧ (trimwhitespace row).1 = TaasFudge.trimmed p.line ∧
      getlines (['\n'].intercalate ((p :: lines).map g)) =
        row :: getlines (['\n'].intercalate (lines.map g)) := by
  rw [List.map_cons]
  rcases getlines_cons (hg.newline p) (lines.map g) with ⟨hp, hlines, hnone⟩ | ⟨row, hrow, hrows⟩
  · left
    have hempty : cString (g p) = [] := congrArg cString hp
    have hblank : TaasFudge.trimmed (g p) = [] := congrArg TaasFudge.trimmed hp
    exact ⟨List.map_eq_nil_iff.1 hlines, hempty, (hg.trimmed p).symm.trans hblank, hnone⟩
  · right
    exact ⟨row, hrow, hrow.trimmed.1.trans (hg.trimmed p), hrows⟩

/-- A reader of rows passes over blank rows and sees others through `trimwhitespace` only. -/
structure Trims {σ : Type} (f : σ → List Char → Option σ) : Prop where
  blank : ∀ s row, (trimwhitespace row).1 = [] → f s row = some s
  congr : ∀ s row row', trimwhitespace row = trimwhitespace row' → f s row = f s row'

section Lines
variable {σ : Type} {f : σ → List Char → Option σ} {g : PaddedLine → List Char}

theorem Trims.line (h : Trims f) (s : σ) {line row : List Char} (hrow : RowOf line row) :
    f s row = f s (cString line) := by
  obtain ⟨htrim, hscan⟩ := hrow.trimmed
  by_cases hblank : trimmed line = []
  · rw [h.blank s row (htrim.trans hblank), h.blank s _ hblank]
  · exact h.congr s row _ (Prod.ext htrim (hscan hblank))

/-- An empty last line gives no row, and is blank. -/
theorem Trims.foldlM_getlines (h : Trims f) (hg : Renders g) (lines : List PaddedLine) (s : σ) :
    (getlines (['\n'].intercalate (lines.map g))).foldlM f s =
      lines.foldlM (fun s p => f s (cString (g p))) s := by
  induction lines generalizing s with
  | nil => rfl
  | cons p lines ih =>
    rw [List.foldlM_cons]
    rcases hg.rows_cons p lines with ⟨hlines, hp, -, hnone⟩ | ⟨row, hrow, -, hrows⟩
    · rw [hnone, hlines, hp, h.blank s [] rfl]
      rfl
    · rw [hrows, List.foldlM_cons, h.line s hrow]
      congr 1
      funext s'
      exact ih s'

/-- The rows of a kind that is not blank, after trimming. -/
theorem filter_getlines {kind : List Char → Bool} (hkind : kind [] = false) (hg : Renders g)
    (lines : List PaddedLine) :
    ((getlines (['\n'].intercalate (lines.map g))).filter fun row =>
        kind (trimwhitespace row).1).map (fun row => (trimwhitespace row).2) =
      (lines.filter fun p => kind (trimmed p.line)).map fun p => scanned (g p) := by
  induction lines with
  | nil => rfl
  | cons p lines ih =>
    rcases hg.rows_cons p lines with ⟨hlines, -, hblank, hnone⟩ | ⟨row, hrow, htrim, hrows⟩
    · rw [hnone, hlines, List.filter_singleton, hblank, hkind]
      rfl
    · rw [hrows, List.filter_cons, List.filter_cons, htrim]
      by_cases hk : kind (trimmed p.line) = true
      · have hne : trimmed (g p) ≠ [] := by
          intro hnil
          rw [hg.trimmed p] at hnil
          rw [hnil, hkind] at hk
          cases hk
        rw [if_pos hk, if_pos hk, List.map_cons, List.map_cons, ih, hrow.trimmed.2 hne]
      · rw [if_neg hk, if_neg hk, ih]

end Lines

/-- There is a blank, at a place that is an `int`. -/
def HasBlank (row : List Char) : Prop := ' ' ∈ row ∧ (row.takeWhile (· ≠ ' ')).length ≤ intMax

theorem takeWhile_append_blank {source : List Char} (h : ' ' ∉ source) (target : List Char) :
    (source ++ ' ' :: target).takeWhile (· ≠ ' ') = source := by
  have hpos : ∀ c ∈ source, decide (c ≠ ' ') = true := by
    intro c hc
    apply decide_eq_true
    rintro rfl
    exact h hc
  rw [List.takeWhile_append_of_pos hpos, List.takeWhile_cons_of_neg (by decide), List.append_nil]

theorem isSome_splitAtBlank {row : List Char} :
    (splitAtBlank row).isSome = true ↔ HasBlank row := by
  constructor
  · intro h
    obtain ⟨⟨source, target⟩, h⟩ := Option.isSome_iff_exists.1 h
    obtain ⟨rfl, hsource, hlength⟩ := splitAtBlank_eq_some_iff.1 h
    refine ⟨by simp, ?_⟩
    rwa [takeWhile_append_blank hsource]
  · rintro ⟨hblank, hlength⟩
    obtain ⟨source, target, rfl, hsource⟩ := List.eq_append_cons_of_mem hblank
    rw [takeWhile_append_blank hsource] at hlength
    rw [splitAtBlank_append hsource hlength]
    rfl

/-- The scan for the blank of an attack ends within each row. -/
def ScansInside (rows : List (List Char)) : Prop := ∀ row ∈ rows, (splitAtBlank row).isSome = true

theorem splitAtBlank_before {before row source target : List Char} (h : ' ' ∈ before)
    (hsplit : splitAtBlank (before ++ row) = some (source, target)) :
    ∀ c ∈ source, c ∈ before := by
  obtain ⟨first, rest, rfl, hfirst⟩ := List.eq_append_cons_of_mem h
  obtain ⟨heq, hsource, -⟩ := splitAtBlank_eq_some_iff.1 hsplit
  rw [List.append_assoc, List.cons_append] at heq
  have hsame : first = source := by
    rw [← takeWhile_append_blank hfirst (rest ++ row), heq, takeWhile_append_blank hsource]
  rw [← hsame]
  exact fun c hc => List.mem_append_left _ hc

/-- Without a blank before the row it is the blank of the row that is found. -/
theorem splitAtBlank_after {before row source target : List Char} (h : ' ' ∉ before)
    (hsplit : splitAtBlank row = some (source, target)) (hlength : HasBlank (before ++ row)) :
    splitAtBlank (before ++ row) = some (before ++ source, target) := by
  obtain ⟨rfl, hsource, -⟩ := splitAtBlank_eq_some_iff.1 hsplit
  have hboth : ' ' ∉ before ++ source := by
    rw [List.mem_append]
    exact not_or.2 ⟨h, hsource⟩
  rw [HasBlank, ← List.append_assoc, takeWhile_append_blank hboth] at hlength
  rw [← List.append_assoc, splitAtBlank_append hboth hlength.2]

theorem head_of_splitAtBlank {c d : Char} {row cs target : List Char}
    (h : splitAtBlank (d :: row) = some (c :: cs, target)) : c = d := by
  obtain ⟨heq, -⟩ := splitAtBlank_eq_some_iff.1 h
  exact (List.cons.inj heq).1.symm

end TaasFudge
