import TaasFudge.Taas.LineReading

/-! # White space around the lines of a file

What padding does to the readers: they see a line through `trimwhitespace`, but scan the row of an
attack, which still starts with the white space that was added.
-/

namespace TaasFudge

variable {n : ℕ}

section I23
variable {g : PaddedLine → List Char} {lines : List PaddedLine}

theorem atoi_before {before : List Char} (h : ∀ c ∈ before, isspace c = true) (str : List Char) :
    atoi (before ++ str) = atoi str := by
  rw [atoi, atoi, leadingNumber, leadingNumber, List.dropWhile_append_of_pos h]

/-- White space is no number, so no argument is found. -/
theorem i23Index_space {str : List Char} (h : ∀ c ∈ str, isspace c = true) : i23Index n str = none := by
  have hzero : atoi str = 0 := by
    have hvalue := atoi_before h []
    rw [List.append_nil] at hvalue
    rw [hvalue]
    rfl
  rw [i23Index, dif_neg]
  rw [hzero]
  exact fun h => absurd h.1 (by decide)

variable {r r' : ReadAaf n} {p : PaddedLine}

/-- Tabs before an attack are read as part of its first number; other lines are trimmed. -/
theorem i23Row_text (h : i23Row r (cString p.line) = some r')
    (hp : isI23Attack (trimmed p.line) = true →
      ' ' ∉ p.before.1 ∧ HasBlank (p.before.1 ++ scanned p.line)) :
    i23Row r (cString p.text) = some r' := by
  have htrim : (trimwhitespace (cString p.text)).1 = (trimwhitespace (cString p.line)).1 :=
    p.trimmed_text
  rw [i23Row] at h ⊢
  dsimp only at h ⊢
  rw [htrim]
  split_ifs at h ⊢ with hblank hcomment
  · exact h
  · exact h
  · have hattack : isI23Attack (trimmed p.line) = true :=
      isI23Attack_iff.2 ⟨hblank, Bool.eq_false_iff.2 hcomment⟩
    have hscan : (trimwhitespace (cString p.text)).2 =
        p.before.1 ++ (trimwhitespace (cString p.line)).2 := p.scanned_text hblank
    obtain ⟨⟨source, target⟩, hsplit, h⟩ := Option.bind_eq_some_iff.1 h
    have hindex : i23Index n (p.before.1 ++ source) = i23Index n source := by
      simp only [i23Index, atoi_before p.before.isspace]
    rw [hscan, splitAtBlank_after (hp hattack).1 hsplit (hp hattack).2]
    dsimp only at h
    rw [← h]
    simp only [Option.bind_eq_bind, Option.bind_some, hindex]

/-- A space before an attack is taken for the separating one. -/
theorem i23Row_eq_none (hattack : isI23Attack (trimmed p.line) = true) (hp : ' ' ∈ p.before.1) :
    i23Row r (cString p.text) = none := by
  obtain ⟨hblank, hcomment⟩ := isI23Attack_iff.1 hattack
  have htrim : (trimwhitespace (cString p.text)).1 = trimmed p.line := p.trimmed_text
  have hscan : (trimwhitespace (cString p.text)).2 = p.before.1 ++ scanned p.line :=
    p.scanned_text hblank
  rw [i23Row]
  dsimp only
  rw [htrim, if_neg hblank, hcomment, if_neg Bool.false_ne_true, hscan]
  cases hsplit : splitAtBlank (p.before.1 ++ scanned p.line) with
  | none => rfl
  | some q =>
    have hspace : ∀ c ∈ q.1, isspace c = true := fun c hc =>
      p.before.isspace c (splitAtBlank_before hp hsplit c hc)
    change (i23Index n q.1).bind _ = none
    rw [i23Index_space hspace]
    rfl

/-- A framework that was read is read again unless a space was added before an attack. -/
theorem readFileI23_padded_iff {r : Σ n, ReadAaf n} (h : readFileI23 (original lines) = some r)
    (hscans : ∀ p ∈ i23AttackLines lines, HasBlank (p.before.1 ++ scanned p.line)) :
    readFileI23 (padded lines) = some r ↔ ∀ p ∈ i23AttackLines lines, ' ' ∉ p.before.1 := by
  rw [original, readFileI23_lines renders_line] at h
  rw [padded, readFileI23_lines renders_text, i23AttackLines]
  rw [i23AttackLines] at hscans
  obtain ⟨⟨number, rest⟩, hafter, h⟩ := Option.bind_eq_some_iff.1 h
  rw [hafter] at hscans
  rw [hafter, Option.bind_some]
  dsimp only at h hscans ⊢
  split_ifs at h ⊢ with hneg
  obtain ⟨r₁, hrun, rfl⟩ := Option.map_eq_some_iff.1 h
  constructor
  · intro hpadded p hp
    obtain ⟨r₂, hrun', -⟩ := Option.map_eq_some_iff.1 hpadded
    rw [List.mem_filter] at hp
    intro hspace
    obtain ⟨r₃, r₄, -, hrow⟩ := exists_step_of_foldlM (I := fun _ => True)
      (fun _ _ _ _ _ _ => trivial) trivial hrun' p hp.1
    rw [i23Row_eq_none hp.2 hspace] at hrow
    cases hrow
  · intro hpads
    obtain ⟨r₂, hrun', rfl⟩ := exists_foldlM_of_step (R := Eq)
      (f := fun r (p : PaddedLine) => i23Row r (cString p.text))
      (fun r₁ _ r₂ p hp heq hrow => by
        subst heq
        refine ⟨r₂, i23Row_text hrow fun hattack => ?_, rfl⟩
        have hmem : p ∈ rest.filter fun p => isI23Attack (trimmed p.line) :=
          List.mem_filter.2 ⟨hp, hattack⟩
        exact ⟨hpads p hmem, hscans p hmem⟩)
      rfl hrun
    rw [hrun', Option.map_some]

theorem scansInside_i23 {g : PaddedLine → List Char} (hg : Renders g) (lines : List PaddedLine) :
    ScansInside (i23AttackRows (['\n'].intercalate (lines.map g))) ↔
      ∀ p ∈ i23AttackLines lines, HasBlank (scanned (g p)) := by
  have hrows : i23AttackRows (['\n'].intercalate (lines.map g)) =
      (i23AttackLines lines).map fun p => scanned (g p) := by
    rw [i23AttackRows, readHeader_lines hg, i23AttackLines]
    cases afterHeader lines with
    | none => rfl
    | some q => exact filter_getlines rfl hg q.2
  simp only [hrows, ScansInside, List.forall_mem_map, isSome_splitAtBlank]

end I23

section Tgf
variable {g : PaddedLine → List Char} {mem : TgfMem} {lines : List PaddedLine} {st st' : TgfState}
  {p : PaddedLine}

theorem row_text_of_argument (h : st.attacks = none) :
    st.row mem (cString p.text) = st.row mem (cString p.line) := by
  have htrim : (trimwhitespace (cString p.text)).1 = (trimwhitespace (cString p.line)).1 :=
    p.trimmed_text
  rw [TgfState.row, TgfState.row]
  dsimp only
  rw [htrim, h]

/-- A line of the attacks, with nothing added before it if it is one. -/
theorem row_text_of_attack (h : isTgfAttack (trimmed p.line) = true → p.before.1 = []) :
    st.row mem (cString p.text) = st.row mem (cString p.line) := by
  have htrim : (trimwhitespace (cString p.text)).1 = (trimwhitespace (cString p.line)).1 :=
    p.trimmed_text
  by_cases hattack : isTgfAttack (trimmed p.line) = true
  · have hscan := p.scanned_text (isTgfAttack_iff.1 hattack).1
    rw [h hattack, List.nil_append] at hscan
    exact (trims_row mem).congr st _ _ (Prod.ext htrim hscan)
  · rw [TgfState.row, TgfState.row]
    dsimp only
    rw [htrim]
    split_ifs with hblank hend
    · rfl
    · rfl
    · exact absurd (isTgfAttack_iff.2 ⟨hblank, hend⟩) hattack

/-- What is read of a line before the `#` line. -/
theorem attacks_of_row (h : st.attacks = none) (hend : trimmed p.line ≠ ['#'])
    (hrow : st.row mem (cString p.line) = some st') : st'.attacks = none := by
  by_cases hblank : trimmed p.line = []
  · rw [(trims_row mem).blank st _ hblank] at hrow
    rwa [← Option.some.inj hrow]
  · rw [TgfState.row_argument h hblank hend] at hrow
    exact (TgfState.of_argument (mt mem_of_mem_trimwhitespace (nul_notMem_cString _)) hrow).1.trans h

theorem foldlM_row_text (h : st.attacks = none) (hpads : ∀ p ∈ tgfAttackLines lines, p.before.1 = [])
    (hrun : lines.foldlM (fun st p => st.row mem (cString p.line)) st = some st') :
    lines.foldlM (fun st p => st.row mem (cString p.text)) st = some st' := by
  induction lines generalizing st with
  | nil => exact hrun
  | cons p lines ih =>
    rw [List.foldlM_cons] at hrun ⊢
    rw [row_text_of_argument h]
    obtain ⟨st₁, hst₁, hrun⟩ := Option.bind_eq_some_iff.1 hrun
    rw [hst₁]
    rw [tgfAttackLines, afterHash] at hpads
    by_cases hend : trimmed p.line = ['#']
    · rw [if_pos hend] at hpads
      obtain ⟨st₂, hst₂, rfl⟩ := exists_foldlM_of_step (R := Eq)
        (f := fun st (p : PaddedLine) => st.row mem (cString p.text))
        (fun st₁ _ st₂ p hp heq hrow => by
          subst heq
          refine ⟨st₂, ?_, rfl⟩
          rw [row_text_of_attack fun hattack => hpads p (List.mem_filter.2 ⟨hp, hattack⟩)]
          exact hrow)
        rfl hrun
      exact hst₂
    · rw [if_neg hend] at hpads
      exact ih (attacks_of_row h hend hst₁) hpads hrun

/-- All names in the table begin with a character that is no white space. -/
def NamesStart (st : TgfState) : Prop :=
  ∀ name, st.arguments2ids name ≠ none → ∃ c cs, name = c :: cs ∧ isspace c = false

theorem exists_head_trimwhitespace {str : List Char} (h : (trimwhitespace str).1 ≠ []) :
    ∃ c cs, (trimwhitespace str).1 = c :: cs ∧ isspace c = false := by
  rw [ne_eq, trimwhitespace_eq_nil_iff] at h
  have hhead := List.head_dropWhile_not isspace h
  obtain ⟨c, cs, hcs⟩ := List.exists_cons_of_ne_nil h
  simp only [hcs, List.head_cons] at hhead
  rw [trimwhitespace]
  dsimp only
  rw [if_neg h, hcs]
  obtain ⟨rest, hrest⟩ := List.rdropWhile_prefix isspace (c :: cs)
  cases hdrop : (c :: cs).rdropWhile isspace with
  | nil =>
    rw [List.rdropWhile_eq_nil_iff] at hdrop
    rw [hdrop c List.mem_cons_self] at hhead
    cases hhead
  | cons d ds =>
    rw [hdrop, List.cons_append] at hrest
    obtain ⟨rfl, -⟩ := List.cons.inj hrest
    exact ⟨d, ds, rfl, hhead⟩

theorem NamesStart.row_argument (hnames : NamesStart st) (h : st.attacks = none)
    (hend : trimmed p.text ≠ ['#']) (hrow : st.row mem (cString p.text) = some st') :
    NamesStart st' ∧ st'.attacks = none := by
  by_cases hblank : trimmed p.text = []
  · rw [(trims_row mem).blank st _ hblank] at hrow
    rw [← Option.some.inj hrow]
    exact ⟨hnames, h⟩
  · rw [TgfState.row_argument h hblank hend] at hrow
    obtain ⟨hattacks, htable⟩ :=
      TgfState.of_argument (mt mem_of_mem_trimwhitespace (nul_notMem_cString _)) hrow
    refine ⟨fun name hname => ?_, hattacks.trans h⟩
    by_cases heq : name = (trimwhitespace (cString p.text)).1
    · rw [heq]
      exact exists_head_trimwhitespace hblank
    · rw [htable, Function.update_of_ne heq] at hname
      exact hnames name hname

/-- A source that begins with white space is no name. -/
theorem row_eq_none (hnames : NamesStart st) {a : TgfAttacks} (ha : st.attacks = some a)
    (hattack : isTgfAttack (trimmed p.line) = true) (hp : p.before.1 ≠ []) :
    st.row mem (cString p.text) = none := by
  rw [isTgfAttack_iff] at hattack
  have htrim : (trimwhitespace (cString p.text)).1 = trimmed p.line := p.trimmed_text
  have hscan : (trimwhitespace (cString p.text)).2 = p.before.1 ++ scanned p.line :=
    p.scanned_text hattack.1
  rw [TgfState.row]
  dsimp only
  rw [htrim, if_neg hattack.1, if_neg hattack.2, ha, hscan]
  dsimp only
  rw [Option.eq_none_iff_forall_ne_some]
  intro st' h
  obtain ⟨⟨source, target⟩, hsplit, h⟩ := Option.bind_eq_some_iff.1 h
  obtain ⟨idx1, hsource, -⟩ := Option.bind_eq_some_iff.1 h
  obtain ⟨c, cs, rfl, hc⟩ := hnames source (by rw [hsource]; exact Option.some_ne_none _)
  obtain ⟨d, ds, hbefore⟩ := List.exists_cons_of_ne_nil hp
  have hd : isspace d = true := by
    apply p.before.isspace
    rw [hbefore]
    exact List.mem_cons_self
  -- the source starts with the first character that was added
  rw [hbefore, List.cons_append] at hsplit
  rw [← head_of_splitAtBlank hsplit, hc] at hd
  cases hd

theorem before_eq_nil_of_foldlM (hnames : NamesStart st) (h : st.attacks = none)
    (hrun : lines.foldlM (fun st p => st.row mem (cString p.text)) st = some st') :
    ∀ p ∈ tgfAttackLines lines, p.before.1 = [] := by
  induction lines generalizing st with
  | nil => exact List.forall_mem_nil _
  | cons p lines ih =>
    rw [List.foldlM_cons] at hrun
    obtain ⟨st₁, hst₁, hrun⟩ := Option.bind_eq_some_iff.1 hrun
    rw [tgfAttackLines, afterHash]
    by_cases hend : trimmed p.line = ['#']
    · rw [if_pos hend]
      have hswitch : st₁.arguments2ids = st.arguments2ids ∧ ∃ a, st₁.attacks = some a := by
        have htrim : (trimwhitespace (cString p.text)).1 = trimmed p.line := p.trimmed_text
        rw [TgfState.row] at hst₁
        dsimp only at hst₁
        rw [htrim, hend, if_neg (List.cons_ne_nil _ _), if_pos rfl] at hst₁
        simp only [TgfState.switchSection, Option.bind_eq_bind, Option.bind_eq_some_iff] at hst₁
        obtain ⟨_, -, _, -, hst₁⟩ := hst₁
        obtain rfl := Option.some.inj hst₁
        exact ⟨rfl, _, rfl⟩
      have hstart : NamesStart st₁ := fun name hname => hnames name (by rwa [hswitch.1] at hname)
      intro q hq
      rw [List.mem_filter] at hq
      obtain ⟨st₂, st₃, ⟨hst₂, a, ha⟩, hrow⟩ := exists_step_of_foldlM
        (I := fun st => NamesStart st ∧ ∃ a, st.attacks = some a) (by
          rintro st st' x - ⟨hnames, a, ha⟩ hrow
          obtain ⟨-, htable, hattacks⟩ := TgfState.names_of_row ha hrow
          exact ⟨fun name hname => hnames name (by rwa [htable] at hname), hattacks⟩)
        ⟨hstart, hswitch.2⟩ hrun q hq.1
      by_contra hne
      rw [row_eq_none hst₂ ha hq.2 hne] at hrow
      cases hrow
    · rw [if_neg hend]
      obtain ⟨hnames₁, hattacks₁⟩ := hnames.row_argument h
        (by rwa [p.trimmed_text]) hst₁
      exact ih hnames₁ hattacks₁ hrun

/-- A framework that was read is read again unless something was added before an attack. -/
theorem readFileTgf_padded_iff (h : TgfState.readFile mem (original lines) = some st) :
    TgfState.readFile mem (padded lines) = some st ↔
      ∀ p ∈ tgfAttackLines lines, p.before.1 = [] := by
  rw [original, readFileTgf_lines renders_line] at h
  rw [padded, readFileTgf_lines renders_text]
  constructor
  · intro hpadded
    apply before_eq_nil_of_foldlM _ rfl hpadded
    intro name hname
    exact absurd rfl hname
  · intro hpads
    exact foldlM_row_text rfl hpads h

theorem scansInside_tgf {g : PaddedLine → List Char} (hg : Renders g) (lines : List PaddedLine) :
    ScansInside (tgfAttackRows (['\n'].intercalate (lines.map g))) ↔
      ∀ p ∈ tgfAttackLines lines, HasBlank (scanned (g p)) := by
  have hrows : tgfAttackRows (['\n'].intercalate (lines.map g)) =
      (tgfAttackLines lines).map fun p => scanned (g p) := by
    have hargs := tgfArguments_lines hg lines
    rw [tgfAttackRows, tgfAttackLines]
    cases hafter : afterHash lines with
    | none =>
      rw [hafter, Option.map_none, Option.map_eq_none_iff] at hargs
      rw [hargs]
      rfl
    | some rest =>
      rw [hafter, Option.map_some, Option.map_eq_some_iff] at hargs
      obtain ⟨⟨names, rows⟩, hargs, hrows⟩ := hargs
      dsimp only at hrows
      rw [hargs, hrows]
      exact filter_getlines rfl hg rest
  simp only [hrows, ScansInside, List.forall_mem_map, isSome_splitAtBlank]

end Tgf

inductive Reader where
  | i23
  | tgf

def Reader.attackLines (lines : List PaddedLine) : Reader → List PaddedLine
  | .i23 => i23AttackLines lines
  | .tgf => tgfAttackLines lines

/-- What was read of the file is read of the padded file, and in both of them each scan ends within
its row. -/
def Unchanged (mem : TgfMem) (lines : List PaddedLine) : Reader → Prop
  | .i23 =>
    (∀ r, readFileI23 (original lines) = some r → readFileI23 (padded lines) = some r) ∧
      ScansInside (i23AttackRows (original lines)) ∧ ScansInside (i23AttackRows (padded lines))
  | .tgf =>
    (∀ st, TgfState.readFile mem (original lines) = some st →
      TgfState.readFile mem (padded lines) = some st) ∧
      ScansInside (tgfAttackRows (original lines)) ∧ ScansInside (tgfAttackRows (padded lines))

/-- Each attack line has a blank, with and without what was added before it. -/
def BlanksInside (lines : List PaddedLine) (reader : Reader) : Prop :=
  ∀ p ∈ reader.attackLines lines,
    HasBlank (scanned p.line) ∧ HasBlank (p.before.1 ++ scanned p.line)

/-- Each attack line has a blank, and where the lines can be read, no space was added before an
attack of an ICCMA23 file, and nothing before one of a TGF file. -/
def PadsHarmless (lines : List PaddedLine) : Reader → Prop
  | .i23 => BlanksInside lines .i23 ∧
    (I23Readable lines → ∀ p ∈ i23AttackLines lines, ' ' ∉ p.before.1)
  | .tgf => BlanksInside lines .tgf ∧
    (TgfReadable lines → ∀ p ∈ tgfAttackLines lines, p.before.1 = [])

theorem blanksInside_i23_iff {lines : List PaddedLine} : BlanksInside lines .i23 ↔
    ScansInside (i23AttackRows (original lines)) ∧ ScansInside (i23AttackRows (padded lines)) := by
  rw [original, padded, scansInside_i23 renders_line, scansInside_i23 renders_text,
    ← forall₂_and]
  refine forall₂_congr fun p hp => ?_
  rw [p.scanned_text (isI23Attack_iff.1 (isI23Attack_of_mem hp)).1]

theorem blanksInside_tgf_iff {lines : List PaddedLine} : BlanksInside lines .tgf ↔
    ScansInside (tgfAttackRows (original lines)) ∧ ScansInside (tgfAttackRows (padded lines)) := by
  rw [original, padded, scansInside_tgf renders_line, scansInside_tgf renders_text,
    ← forall₂_and]
  refine forall₂_congr fun p hp => ?_
  rw [p.scanned_text (isTgfAttack_iff.1 (isTgfAttack_of_mem hp)).1]

theorem unchanged_iff (mem : TgfMem) (lines : List PaddedLine) (reader : Reader) :
    Unchanged mem lines reader ↔ PadsHarmless lines reader := by
  cases reader with
  | i23 =>
    rw [Unchanged, PadsHarmless, ← blanksInside_i23_iff, and_comm, ← readFileI23_isSome_iff,
      Option.isSome_iff_exists, forall_exists_index]
    exact and_congr_right fun hblanks => forall₂_congr fun r hr =>
      readFileI23_padded_iff hr fun p hp => (hblanks p hp).2
  | tgf =>
    rw [Unchanged, PadsHarmless, ← blanksInside_tgf_iff, and_comm, ← readFile_isSome_iff mem,
      Option.isSome_iff_exists, forall_exists_index]
    exact and_congr_right fun _ => forall₂_congr fun st hst => readFileTgf_padded_iff hst

def spaceBeforeAttack : List PaddedLine :=
  [⟨⟨[], nofun⟩, ⟨"p af 2".toList, by decide⟩, ⟨[], nofun⟩⟩,
    ⟨⟨[' '], by simp⟩, ⟨"1 2".toList, by decide⟩, ⟨[], nofun⟩⟩]

/-- The number before the space is 0, and no argument has the index -1. -/
theorem unchanged_spaceBeforeAttack : original spaceBeforeAttack = "p af 2\n1 2".toList ∧
    padded spaceBeforeAttack = "p af 2\n 1 2".toList ∧
    ¬ Unchanged zeroMem spaceBeforeAttack .i23 := by
  refine ⟨rfl, rfl, fun h => ?_⟩
  have hread := readFileI23_i23File (n := 2) (by decide) [] ⟨[], nofun⟩
    [.attack ⟨0, by decide⟩ ⟨1, by decide⟩ ⟨[], nofun⟩]
  have hfile : i23File [] 2 ⟨[], nofun⟩ [.attack ⟨0, by decide⟩ ⟨1, by decide⟩ ⟨[], nofun⟩] =
      original spaceBeforeAttack := rfl
  rw [hfile] at hread
  have hspace := (readFileI23_padded_iff hread
    fun p hp => (blanksInside_i23_iff.2 h.2 p hp).2).1 (h.1 _ hread)
  exact hspace _ (show _ ∈ i23AttackLines spaceBeforeAttack from List.mem_singleton.2 rfl)
    List.mem_cons_self

end TaasFudge
