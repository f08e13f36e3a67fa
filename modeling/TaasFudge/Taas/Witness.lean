import Mathlib.Data.Set.Finite.Basic
import TaasFudge.Taas.Inout
import TaasFudge.Tasks.Shown

/-! # Reading witness lines back

A reader of the output splits a witness line at blanks and looks the words up among the
names. Which spellings come back as the set that was held depends on the names of the
arguments in it.
-/

namespace TaasFudge

variable {n : ℕ}

def words (text : List Char) : List (List Char) := (text.splitOn ' ').filter (· ≠ [])

@[simp] theorem words_nil : words [] = [] := rfl

theorem words_append_blank (xs ys : List Char) : words (xs ++ ' ' :: ys) = words xs ++ words ys := by
  rw [words, List.splitOn_append_cons_self, List.filter_append, words, words]

@[simp] theorem words_blank_cons (xs : List Char) : words (' ' :: xs) = words xs :=
  words_append_blank [] xs

theorem words_singleton {word : List Char} (h : ' ' ∉ word) (hne : word ≠ []) :
    words word = [word] := by
  rw [words, List.splitOn_eq_singleton h, List.filter_singleton]
  simp [hne]

theorem notMem_of_mem_splitOn {a : Char} (text : List Char) :
    ∀ word ∈ text.splitOn a, a ∉ word := by
  induction text with
  | nil => simp
  | cons c text ih =>
    rw [List.splitOn_cons_eq_if_modifyHead]
    cases hsplit : text.splitOn a with
    | nil => exact absurd hsplit (List.splitOn_ne_nil a text)
    | cons word rest =>
      rw [hsplit, List.forall_mem_cons] at ih
      by_cases hc : c = a
      · simpa [hc] using ih
      · simpa [hc, Ne.symm hc] using ih

theorem blank_notMem_of_mem_words {text word : List Char} (h : word ∈ words text) : ' ' ∉ word :=
  notMem_of_mem_splitOn text word (List.mem_filter.1 h).1

theorem words_terminated (ws : List (List Char)) (h : ∀ word ∈ ws, ' ' ∉ word ∧ word ≠ []) :
    words (ws.flatMap fun word => word ++ [' ']) = ws := by
  induction ws with
  | nil => rfl
  | cons word ws ih =>
    rw [List.forall_mem_cons] at h
    rw [List.flatMap_cons, List.append_assoc, List.singleton_append, words_append_blank,
      words_singleton h.1.1 h.1.2, ih h.2, List.singleton_append]

theorem words_separated (word : List Char) (ws : List (List Char))
    (h : ∀ w ∈ word :: ws, ' ' ∉ w ∧ w ≠ []) :
    words (word ++ ws.flatMap fun w => ' ' :: w) = word :: ws := by
  induction ws generalizing word with
  | nil =>
    rw [List.flatMap_nil, List.append_nil]
    exact words_singleton (h word List.mem_cons_self).1 (h word List.mem_cons_self).2
  | cons w ws ih =>
    rw [List.forall_mem_cons] at h
    rw [List.flatMap_cons, List.cons_append, words_append_blank, words_singleton h.1.1 h.1.2,
      ih w h.2, List.singleton_append]

/-- The words of a line after its first character and before its newline. -/
def witnessTokens (line : String) : List String :=
  (words (line.toList.drop 1).dropLast).map String.ofList

theorem terminatedLine_toList (name : Fin n → String) (l : List (Fin n)) :
    (terminatedLine name l).toList =
      'w' :: ' ' :: ((l.map fun i => (name i).toList).flatMap fun word => word ++ [' ']) ++ ['\n'] := by
  have hfold : ∀ (l : List (Fin n)) (acc : String),
      (l.foldl (fun acc i => acc ++ (name i ++ " ")) acc).toList =
        acc.toList ++ (l.map fun i => (name i).toList).flatMap fun word => word ++ [' '] := by
    intro l
    induction l with
    | nil => simp
    | cons i l ih =>
      intro acc
      rw [List.foldl_cons, ih]
      simp
  rw [terminatedLine, String.toList_append, hfold]
  rfl

theorem joinNames_toList (sep x : String) (xs : List String) :
    (joinNames sep (x :: xs)).toList =
      x.toList ++ (xs.map String.toList).flatMap fun word => sep.toList ++ word := by
  rw [joinNames]
  induction xs generalizing x with
  | nil => simp
  | cons y xs ih =>
    rw [List.foldl_cons, ih]
    simp

theorem words_joinNames (xs : List String) (h : ∀ x ∈ xs, ' ' ∉ x.toList ∧ x.toList ≠ []) :
    words (joinNames " " xs).toList = xs.map String.toList := by
  cases xs with
  | nil => rfl
  | cons x xs =>
    rw [joinNames_toList]
    change words (x.toList ++ (xs.map String.toList).flatMap fun word => ' ' :: word) = _
    rw [words_separated, List.map_cons]
    simpa using h

namespace Shown

def word (s : Shown n) (aaf : AAF n) (i : Fin n) : String :=
  match s.spelling with
  | .numbered => argNumber i
  | _ => aaf.ids2arguments i

/-- If no word contains a blank, splitting gives the words. -/
theorem witnessTokens_line (s : Shown n) (aaf : AAF n)
    (h : ∀ i ∈ s.ids, ' ' ∉ (s.word aaf i).toList ∧ (s.word aaf i).toList ≠ []) :
    witnessTokens (s.line aaf) = s.ids.map (s.word aaf) := by
  have hterminated : ∀ name : Fin n → String, s.word aaf = name →
      witnessTokens (terminatedLine name s.ids) = s.ids.map (s.word aaf) := by
    rintro name rfl
    rw [witnessTokens, terminatedLine_toList, List.cons_append, List.drop_one, List.tail_cons,
      List.dropLast_concat, words_blank_cons, words_terminated]
    · simp
    · simpa using h
  cases hs : s.spelling with
  | separated =>
    have hword : s.word aaf = aaf.ids2arguments := by funext i; rw [word, hs]
    rw [line, hs, hword, witnessTokens, String.toList_append, String.toList_append]
    change (words (' ' :: ((joinNames " " (s.ids.map aaf.ids2arguments)).toList ++
      ['\n'])).dropLast).map String.ofList = _
    rw [← List.cons_append, List.dropLast_concat, words_blank_cons, words_joinNames]
    · simp
    · simpa [hword] using h
  | terminated =>
    rw [line, hs]
    exact hterminated _ (by funext i; rw [word, hs])
  | numbered =>
    rw [line, hs]
    exact hterminated _ (by funext i; rw [word, hs])

end Shown

theorem arguments2ids_eq_some {aaf : AAF n} (hd : Function.Injective aaf.ids2arguments)
    {name : String} {i : Fin n} :
    aaf.arguments2ids name = some i ↔ aaf.ids2arguments i = name := by
  have hfold : ∀ l : List (Fin n),
      l.foldl (fun table i => Function.update table (aaf.ids2arguments i) (some i))
        (fun _ => none) name = some i ↔ i ∈ l ∧ aaf.ids2arguments i = name := by
    intro l
    induction l using List.reverseRecOn with
    | nil => simp
    | append_singleton l j ih =>
      rw [List.foldl_append, List.foldl_cons, List.foldl_nil]
      by_cases hj : aaf.ids2arguments j = name
      · subst hj
        rw [Function.update_self, Option.some.injEq, hd.eq_iff, List.mem_append,
          List.mem_singleton, eq_comm]
        constructor
        · exact fun h => ⟨.inr h, h⟩
        · exact fun h => h.2
      · rw [Function.update_of_ne (Ne.symm hj), ih, List.mem_append, List.mem_singleton]
        constructor
        · exact fun h => ⟨.inl h.1, h.2⟩
        · rintro ⟨hmem | rfl, hi⟩
          · exact ⟨hmem, hi⟩
          · exact absurd hi hj
  rw [AAF.arguments2ids, hfold]
  simp

theorem argNumber_toList (i : Fin n) : (argNumber i).toList = Nat.toDigits 10 (i + 1) := by
  rw [argNumber, Nat.toString_eq_ofList_toDigits, String.toList_ofList]

theorem blank_notMem_argNumber (i : Fin n) : ' ' ∉ (argNumber i).toList := by
  rw [argNumber_toList]
  intro h
  exact absurd (Nat.isDigit_of_mem_toDigits (by decide) le_rfl h) (by decide)

theorem argNumber_toList_ne_nil (i : Fin n) : (argNumber i).toList ≠ [] := by
  rw [argNumber_toList]
  exact Nat.toDigits_ne_nil

theorem argNumber_injective : Function.Injective (argNumber (n := n)) := by
  intro i j h
  have hdigits : Nat.toDigits 10 (i + 1) = Nat.toDigits 10 (j + 1) := by
    rw [← argNumber_toList, ← argNumber_toList, h]
  have hvalue := congrArg (Nat.ofDigitChars 10 · 0) hdigits
  simp only [Nat.ofDigitChars_ten_toDigits] at hvalue
  exact Fin.ext (Nat.succ.inj hvalue)

/-- The words of the line are names of arguments, which are those of the set, each once. -/
def ReadsBack (aaf : AAF n) (line : String) (E : Set (Fin n)) : Prop :=
  ∃ ids : List (Fin n), (witnessTokens line).map aaf.arguments2ids = ids.map some ∧ Lists ids E

section Legible
variable {aaf : AAF n} {s : Shown n}

theorem ReadsBack.token {line : String} {E : Set (Fin n)}
    (hd : Function.Injective aaf.ids2arguments) (h : ReadsBack aaf line E) {i : Fin n}
    (hi : i ∈ E) : aaf.ids2arguments i ∈ witnessTokens line := by
  obtain ⟨ids, htokens, hids⟩ := h
  have hmem : some i ∈ (witnessTokens line).map aaf.arguments2ids := by
    rw [htokens]
    exact List.mem_map_of_mem ((hids.mem_iff i).2 hi)
  obtain ⟨token, htoken, hlookup⟩ := List.mem_map.1 hmem
  rw [(arguments2ids_eq_some hd).1 hlookup]
  exact htoken

theorem blank_notMem_of_mem_witnessTokens {line token : String} (h : token ∈ witnessTokens line) :
    ' ' ∉ token.toList := by
  obtain ⟨word, hword, rfl⟩ := List.mem_map.1 h
  rw [String.toList_ofList]
  exact blank_notMem_of_mem_words hword

/-- Words that are the names of the arguments `f` gives. -/
theorem readsBack_of_word {f : Fin n → Fin n} (hd : Function.Injective aaf.ids2arguments)
    (h : ∀ i ∈ s.ids, ' ' ∉ (s.word aaf i).toList ∧ (s.word aaf i).toList ≠ [])
    (hf : ∀ i ∈ s.ids, aaf.ids2arguments (f i) = s.word aaf i)
    (hbij : Set.BijOn f s.set s.set) : ReadsBack aaf (s.line aaf) s.set := by
  refine ⟨s.ids.map f, ?_, ?_, fun i => ?_⟩
  · rw [s.witnessTokens_line aaf h, List.map_map, List.map_map]
    apply List.map_congr_left
    intro i hi
    exact (arguments2ids_eq_some hd).2 (hf i hi)
  · exact List.Nodup.map_on (fun i hi j hj hij => hbij.injOn hi hj hij) s.nodup
  · rw [List.mem_map, ← hbij.image_eq]
    rfl

theorem readsBack_numbered_iff (hd : Function.Injective aaf.ids2arguments)
    (hs : s.spelling = .numbered) :
    ReadsBack aaf (s.line aaf) s.set ↔
      ∀ i ∈ s.set, ∃ j ∈ s.set, aaf.ids2arguments j = argNumber i := by
  have hword : s.word aaf = argNumber := by funext i; rw [Shown.word, hs]
  have hblank : ∀ i ∈ s.ids, ' ' ∉ (s.word aaf i).toList ∧ (s.word aaf i).toList ≠ [] := by
    intro i _
    rw [hword]
    exact ⟨blank_notMem_argNumber i, argNumber_toList_ne_nil i⟩
  constructor
  · rintro ⟨ids, htokens, hids⟩ i hi
    rw [s.witnessTokens_line aaf hblank, hword] at htokens
    have hmem : aaf.arguments2ids (argNumber i) ∈ ids.map some := by
      rw [← htokens]
      exact List.mem_map_of_mem (List.mem_map_of_mem hi)
    obtain ⟨j, hj, hlookup⟩ := List.mem_map.1 hmem
    exact ⟨j, (hids.mem_iff j).1 hj, (arguments2ids_eq_some hd).1 hlookup.symm⟩
  · intro h
    choose! f hmem hname using h
    have hinj : Set.InjOn f s.set := by
      intro i hi j hj hij
      apply argNumber_injective
      rw [← hname i hi, ← hname j hj, hij]
    apply readsBack_of_word hd hblank (f := f)
    · intro i hi
      rw [hword]
      exact hname i hi
    · exact ((Set.toFinite s.set).injOn_iff_bijOn_of_mapsTo hmem).1 hinj

theorem readsBack_named_iff (hd : Function.Injective aaf.ids2arguments)
    (hne : ∀ i, (aaf.ids2arguments i).toList ≠ []) (hs : s.spelling ≠ .numbered) :
    ReadsBack aaf (s.line aaf) s.set ↔ ∀ i ∈ s.set, ' ' ∉ (aaf.ids2arguments i).toList := by
  have hword : s.word aaf = aaf.ids2arguments := by
    funext i
    rw [Shown.word]
    split
    · exact absurd ‹_› hs
    · rfl
  constructor
  · intro h i hi
    exact blank_notMem_of_mem_witnessTokens (h.token hd hi)
  · intro h
    apply readsBack_of_word hd _ _ (Set.bijOn_id _)
    · intro i hi
      rw [hword]
      exact ⟨h i hi, hne i⟩
    · intro i _
      rw [hword, id]

end Legible

end TaasFudge
