import TaasFudge.Taas.MayHold

/-! # Which witness lines can be read back

Names without blanks can be read back. Some queries print numbers instead, which are
names in one of the two formats only.
-/

namespace TaasFudge

open Dimacs

variable {n : ℕ}

/-- The witness line gives numbers instead of names. The grounded extension and the results of
the searches that replace a query are given by name. -/
def TaskSpecification.ByNumber (task : TaskSpecification n) (aaf : AAF n) : Prop :=
  task.track = "DC-ST" ∨ task.track = "DS-ST" ∨
    (task.track = "DC-CO" ∨ task.track = "DC-PR") ∧
      ∀ arg, task.arg = some arg → (computeGrounded aaf).1.labIn.get arg = false

/-- What is shown, if anything is, is spelled by number iff `b`. -/
def SpelledByNumber (b : Prop) (o : Option (Shown n)) : Prop :=
  ∀ s, o = some s → (s.spelling = .numbered ↔ b)

section Spelling
variable (ω : Oracle) (aaf : AAF n) (grounded : Labeling) (arg : Fin n)

abbrev Yields {α : Type} (p : Prog World α) (Q : α → Prop) : Prop := Prog.Keeps (fun _ => True) p Q

theorem Yields.after {α β : Type} {p : Prog World α} {f : α → Prog World β} {Q : β → Prop}
    (h : ∀ a, Yields (f a) Q) : Yields (p >>= f) Q :=
  (Prog.keeps_true p).bind fun a _ => h a

theorem spelledByNumber_none (b : Prop) : SpelledByNumber b (none : Option (Shown n)) := by
  rintro s ⟨⟩

theorem spelledByNumber_some {b : Prop} {s : Shown n} (h : s.spelling = .numbered ↔ b) :
    SpelledByNumber b (some s) := by
  rintro _ ⟨⟩
  exact h

theorem Yields.say {b : Prop} {o : Option (Shown n)} (h : SpelledByNumber b o) (text : String) :
    Yields (do printf text; pure o) (SpelledByNumber b) :=
  Yields.after fun _ => Prog.Keeps.pure h

theorem spelledByNumber_model (solver : IpasirSolver) (vars : Fin n → ℤ) :
    SpelledByNumber True (some (solver.shown vars .numbered)) :=
  spelledByNumber_some (iff_of_true rfl trivial)

theorem yields_searchShown (solver : IpasirSolver) (vars : Fin n → ℤ) (yes : Bool) :
    Yields (searchShown ω solver vars yes) (SpelledByNumber True) := by
  apply Yields.after
  rintro ⟨sat, solver⟩
  dsimp only
  split_ifs
  · exact Yields.say (spelledByNumber_none True) _
  · exact Yields.say (spelledByNumber_model solver vars) _

theorem yields_dccoShown : Yields (dccoShown ω aaf grounded arg) (SpelledByNumber True) := by
  apply Yields.after
  exact fun solver => yields_searchShown ω solver _ true

theorem yields_sestShown : Yields (sestShown ω aaf grounded) (SpelledByNumber False) := by
  apply Yields.after
  rintro ⟨sat, solver⟩
  dsimp only
  split_ifs
  · exact Yields.say (spelledByNumber_none False) _
  · exact Prog.Keeps.pure (spelledByNumber_some (by simp [IpasirSolver.shown]))

theorem yields_dcstShown : Yields (dcstShown ω aaf grounded arg) (SpelledByNumber True) := by
  apply Yields.after
  exact fun solver => yields_searchShown ω solver _ true

theorem yields_dsstShown : Yields (dsstShown ω aaf grounded arg) (SpelledByNumber True) := by
  apply Yields.after
  rintro ⟨sat, solver⟩
  dsimp only
  split_ifs
  · exact Yields.say (spelledByNumber_none True) _
  · exact Yields.say (spelledByNumber_none True) _
  · exact Yields.say (spelledByNumber_model solver _) _
  · apply Yields.after
    exact fun solver => yields_searchShown ω solver _ false

theorem spelledByNumber_grounded :
    SpelledByNumber False (some (grounded.shown n)) :=
  spelledByNumber_some (by simp [Labeling.shown])

theorem spelledByNumber_raSet (s : RaSet n) : SpelledByNumber False (some s.shown) :=
  spelledByNumber_some (by simp [RaSet.shown])

theorem yields_seprShown (initialAdmSet : Option (RaSet n)) :
    Yields (seprShown ω aaf grounded initialAdmSet) fun s => SpelledByNumber False (some s) := by
  rw [seprShown]
  dsimp only
  split_ifs
  · exact Prog.Keeps.pure (spelledByNumber_grounded grounded)
  · apply Yields.after
    exact fun admSet => Prog.Keeps.pure (spelledByNumber_raSet admSet)

theorem yields_seRangeShown (encode : IpasirSolver → (Fin n → ℤ) → (Fin n → ℤ) → AAF n →
    Labeling → Bool × IpasirSolver) :
    Yields (seRangeShown ω aaf grounded encode) fun s => SpelledByNumber False (some s) := by
  rw [seRangeShown]
  dsimp only
  split_ifs
  · exact Prog.Keeps.pure (spelledByNumber_grounded grounded)
  · apply Yields.after
    exact fun inArg => Prog.Keeps.pure (spelledByNumber_raSet inArg)

theorem Yields.bind_some {p : Prog World (Shown n)}
    (h : Yields p fun s => SpelledByNumber False (some s)) :
    Yields (do let s ← p; pure (some s)) (SpelledByNumber False) :=
  Prog.Keeps.bind h fun _ hs => Prog.Keeps.pure hs

theorem yields_dsprWith {γ : Type} {Q : γ → Prop} {unaccepted : Prog World γ}
    {no : (Fin n → ℤ) → IpasirSolver → Prog World γ} {yes : Prog World γ}
    (hunaccepted : Yields unaccepted Q) (hno : ∀ inVars solver, Yields (no inVars solver) Q)
    (hyes : Yields yes Q) : Yields (dsprWith ω aaf grounded arg unaccepted no yes) Q := by
  apply Yields.after
  intro admTest
  apply Yields.after
  rintro ⟨sat, admTest⟩
  dsimp only
  split_ifs
  · exact hunaccepted
  · apply Yields.after
    intro attAdmTest
    apply Yields.after
    intro admTest
    apply Yields.after
    rintro ⟨sat, admTest⟩
    dsimp only
    split_ifs
    · exact hno _ admTest
    · apply Prog.Keeps.loop (fun _ => True) _ trivial
      intro st _
      apply Yields.after
      rintro ⟨sat, attAdmTest⟩
      dsimp only
      split_ifs
      · exact hyes.bind fun c hc => Prog.Keeps.pure hc
      · apply Yields.after
        rintro ⟨sat, admTest⟩
        dsimp only
        split_ifs
        · exact (hno _ attAdmTest).bind fun c hc => Prog.Keeps.pure hc
        · apply Yields.after
          exact fun _ => Prog.Keeps.pure trivial

theorem yields_dsprShown : Yields (dsprShown ω aaf grounded arg) (SpelledByNumber False) := by
  apply yields_dsprWith
  · apply Yields.after
    exact fun _ => (yields_seprShown ω aaf grounded none).bind_some
  · intro inVars solver
    apply Yields.after
    intro _
    apply Yields.after
    exact fun initialAdmSet => (yields_seprShown ω aaf grounded (some initialAdmSet)).bind_some
  · exact Yields.say (spelledByNumber_none False) _

theorem yields_rangeInnerWith {γ : Type} {Q : γ → Prop} {found : RaSet n → Prog World γ}
    (h : ∀ s, Yields (found s) Q) (task : RangeTask n) (inVars outVars : Fin n → ℤ)
    (solver : IpasirSolver) (st : RangeState n) :
    Yields (rangeInnerWith ω task arg inVars outVars found solver st)
      (LoopStep.holds (fun _ => True) fun p => ∀ c, p.1 = some c → Q c) := by
  apply Yields.after
  intro inner
  apply Yields.after
  rintro ⟨sat, inner⟩
  dsimp only
  split_ifs
  · apply Yields.after
    rintro ⟨sat, inner⟩
    dsimp only
    split_ifs
    · apply (h st.inArg).bind
      rintro c hc
      apply Prog.Keeps.pure
      rintro _ ⟨⟩
      exact hc
    · exact Prog.Keeps.pure nofun
  · apply Yields.after
    exact fun _ => Prog.Keeps.pure trivial

theorem yields_rangeOuterWith {γ : Type} {Q : γ → Prop} {found : RaSet n → Prog World γ}
    {notFound : Prog World γ} (h : ∀ s, Yields (found s) Q) (h' : Yields notFound Q)
    (task : RangeTask n) (inVars outVars : Fin n → ℤ) (solver : IpasirSolver) :
    Yields (rangeOuterWith ω task aaf grounded arg inVars outVars found notFound solver)
      (LoopStep.holds (fun _ => True) Q) := by
  apply Yields.after
  intro solver
  apply Yields.after
  rintro ⟨sat, solver⟩
  dsimp only
  split_ifs
  · exact h'.bind fun _ hc => Prog.Keeps.pure hc
  · apply Yields.after
    rintro ⟨st, clause⟩
    apply Prog.Keeps.bind (Q := fun p => ∀ c, p.1 = some c → Q c)
    · apply Prog.Keeps.loop (fun _ => True) _ trivial
      exact fun st _ => yields_rangeInnerWith ω arg h task inVars outVars solver st
    · rintro ⟨result, solver⟩ hresult
      cases result with
      | none => exact Prog.Keeps.pure trivial
      | some c => exact Prog.Keeps.pure (hresult c rfl)

theorem yields_rangeShown (task : RangeTask n) :
    Yields (rangeShown ω aaf grounded arg task) (SpelledByNumber False) := by
  rw [rangeShown]
  dsimp only
  split_ifs
  · exact Yields.say (spelledByNumber_grounded grounded) _
  · exact Yields.say (spelledByNumber_none False) _
  · exact Yields.say (spelledByNumber_grounded grounded) _
  · apply Prog.Keeps.loop (fun _ => True) _ trivial
    intro solver _
    apply yields_rangeOuterWith
    · exact fun s => Yields.say (spelledByNumber_raSet s) _
    · exact Yields.say (spelledByNumber_none False) _

theorem yields_withArg {α : Type} {Q : α → Prop} (task : TaskSpecification n)
    {f : Fin n → Prog World α} (h : ∀ arg, Yields (f arg) Q) : Yields (withArg task f) Q := by
  rw [withArg]
  cases task.arg with
  | none => exact fun _ _ _ => trivial
  | some arg => exact h arg

theorem yields_ite {α : Type} {c : Prop} [Decidable c] {p q : Prog World α} {Q : α → Prop}
    (h₁ : c → Yields p Q) (h₂ : ¬ c → Yields q Q) : Yields (if c then p else q) Q := by
  split_ifs with h
  · exact h₁ h
  · exact h₂ h

theorem Yields.noWitness (p : Prog World Unit) (b : Prop) :
    Yields (do p; pure (none : Option (Shown n))) (SpelledByNumber b) :=
  Yields.after fun _ => Prog.Keeps.pure (spelledByNumber_none b)

theorem Yields.map_some {p : Prog World (Shown n)}
    (h : Yields p fun s => SpelledByNumber False (some s)) :
    Yields (some <$> p) (SpelledByNumber False) := by
  rw [map_eq_pure_bind]
  exact h.bind_some

theorem Yields.byNumber {p : Prog World (Option (Shown n))} {b : Prop} (hb : b)
    (h : Yields p (SpelledByNumber True)) : Yields p (SpelledByNumber b) := by
  rwa [eq_true hb]

theorem Yields.byName {p : Prog World (Option (Shown n))} {b : Prop} (hb : ¬ b)
    (h : Yields p (SpelledByNumber False)) : Yields p (SpelledByNumber b) := by
  rwa [eq_false hb]

def numberTracks : List String := ["DC-CO", "DC-PR", "DC-ST", "DS-ST"]

theorem yields_switchShown (task : TaskSpecification n) :
    Yields (switchShown ω task aaf grounded) (SpelledByNumber (task.track ∈ numberTracks)) := by
  rw [switchShown]
  apply yields_ite <;> intro h
  · apply Yields.byName (by simp [h, numberTracks])
    exact yields_withArg task fun arg => yields_dsprShown ω aaf grounded arg
  apply yields_ite <;> intro h
  · apply Yields.byName (by simp [h, numberTracks])
    exact Yields.after fun ideal => Prog.Keeps.pure (spelledByNumber_raSet ideal)
  apply yields_ite <;> intro h
  · exact Yields.noWitness _ _
  apply yields_ite <;> intro h
  · apply Yields.byNumber (by rcases h with h | h <;> simp [h, numberTracks])
    exact yields_withArg task fun arg => yields_dccoShown ω aaf grounded arg
  apply yields_ite <;> intro h
  · apply Yields.byName (by simp [h, numberTracks])
    exact yields_sestShown ω aaf grounded
  apply yields_ite <;> intro h
  · apply Yields.byNumber (by simp [h, numberTracks])
    exact yields_withArg task fun arg => yields_dcstShown ω aaf grounded arg
  apply yields_ite <;> intro h
  · apply Yields.byNumber (by simp [h, numberTracks])
    exact yields_withArg task fun arg => yields_dsstShown ω aaf grounded arg
  apply yields_ite <;> intro h
  · apply Yields.byName (by rcases h with h | h <;> simp [h, numberTracks])
    apply Yields.after
    intro ideal
    apply Yields.after
    exact fun _ => Prog.Keeps.pure (spelledByNumber_raSet ideal)
  apply yields_ite <;> intro h
  · apply Yields.byName (by simp [h, numberTracks])
    exact (yields_seprShown ω aaf grounded none).map_some
  apply yields_ite <;> intro h
  · apply Yields.byName (by simp [h, numberTracks])
    exact (yields_seRangeShown ω aaf grounded _).map_some
  apply yields_ite <;> intro h
  · apply Yields.byName (by simp [h, numberTracks])
    exact (yields_seRangeShown ω aaf grounded _).map_some
  apply yields_ite <;> intro h
  · apply Yields.byName (by simp [h, numberTracks])
    exact yields_withArg task fun arg => yields_rangeShown ω aaf grounded arg (dcsst n)
  apply yields_ite <;> intro h
  · apply Yields.byName (by simp [h, numberTracks])
    exact yields_withArg task fun arg => yields_rangeShown ω aaf grounded arg (dssst n)
  apply yields_ite <;> intro h
  · apply Yields.byName (by simp [h, numberTracks])
    exact yields_withArg task fun arg => yields_rangeShown ω aaf grounded arg (dcstg n)
  apply yields_ite <;> intro h
  · apply Yields.byName (by simp [h, numberTracks])
    exact yields_withArg task fun arg => yields_rangeShown ω aaf grounded arg (dsstg n)
  apply yields_ite <;> intro h
  · exact Yields.noWitness _ _
  apply yields_ite <;> intro h
  · exact Yields.noWitness _ _
  apply yields_ite <;> intro h
  · exact Yields.noWitness _ _
  · exact Prog.Keeps.pure (spelledByNumber_none _)

theorem yields_redirected (task : TaskSpecification n) {track : String}
    (h : track ∉ numberTracks) :
    Yields (switchShown ω { task with track := track } aaf grounded) (SpelledByNumber False) := by
  have hswitch := yields_switchShown ω aaf grounded { task with track := track }
  rwa [eq_false h] at hswitch

theorem yields_argIs (task : TaskSpecification n) (tracks : List String) (bits : BitSet) :
    Yields (argIs task tracks bits) fun b => (b = true → task.track ∈ tracks) ∧
      (task.track ∈ tracks → ∃ arg, task.arg = some arg ∧ bits.get arg = b) := by
  rw [argIs]
  apply yields_ite <;> intro h
  · rw [withArg]
    cases harg : task.arg with
    | none => exact fun _ _ _ => trivial
    | some arg => exact Prog.Keeps.pure ⟨fun _ => h, fun _ => ⟨arg, rfl, rfl⟩⟩
  · exact Prog.Keeps.pure ⟨fun hb => absurd hb Bool.false_ne_true, fun hmem => absurd hmem h⟩

/-- A query about an argument in the grounded extension is answered without numbers. -/
theorem not_byNumber_of_in {task : TaskSpecification n} {arg : Fin n}
    (ht : task.track ∈ ["DC-CO", "DC-PR", "DC-SST", "DC-ID"]) (harg : task.arg = some arg)
    (hin : (computeGrounded aaf).1.labIn.get arg = true) : ¬ task.ByNumber aaf := by
  rintro (h | h | ⟨-, h⟩)
  · simp [h] at ht
  · simp [h] at ht
  · rw [h arg harg] at hin
    cases hin

/-- Other queries are answered by the search of their track. -/
theorem byNumber_iff_of_not_in {task : TaskSpecification n}
    (h : task.track ∈ ["DC-CO", "DC-PR", "DC-SST", "DC-ID"] →
      ∃ arg, task.arg = some arg ∧ (computeGrounded aaf).1.labIn.get arg = false) :
    task.track ∈ numberTracks ↔ task.ByNumber aaf := by
  have hout : task.track = "DC-CO" ∨ task.track = "DC-PR" →
      ∀ arg, task.arg = some arg → (computeGrounded aaf).1.labIn.get arg = false := by
    intro hquery arg harg
    obtain ⟨arg', harg', hbit⟩ := h (by rcases hquery with h | h <;> simp [h])
    rw [Option.some.inj (harg.symm.trans harg'), hbit]
  rw [TaskSpecification.ByNumber]
  constructor
  · intro ht
    simp only [numberTracks, List.mem_cons, List.not_mem_nil, or_false] at ht
    rcases ht with h | h | h | h
    · exact .inr (.inr ⟨.inl h, hout (.inl h)⟩)
    · exact .inr (.inr ⟨.inr h, hout (.inr h)⟩)
    · exact .inl h
    · exact .inr (.inl h)
  · rintro (h | h | ⟨h | h, -⟩) <;> simp [h, numberTracks]

theorem yields_taasShown (task : TaskSpecification n) :
    Yields (taasShown ω aaf task) (SpelledByNumber (task.ByNumber aaf)) := by
  rw [taasShown]
  apply yields_ite <;> intro h
  · apply Yields.byName (by rcases h with h | h <;> simp [h, TaskSpecification.ByNumber])
    exact Prog.Keeps.pure (spelledByNumber_grounded _)
  apply yields_ite <;> intro h
  · apply Yields.byName (by rcases h with h | h | h <;> simp [h, TaskSpecification.ByNumber])
    exact Yields.after fun _ => Prog.Keeps.pure (spelledByNumber_grounded _)
  apply (yields_argIs task _ _).bind
  rintro dcIn ⟨hmem, hget⟩
  apply yields_ite <;> intro hdcIn
  · obtain ⟨arg, harg, hbit⟩ := hget (hmem hdcIn)
    apply Yields.byName (not_byNumber_of_in aaf (hmem hdcIn) harg (hbit.trans hdcIn))
    apply Yields.after
    intro _
    apply yields_ite <;> intro hco
    · exact Prog.Keeps.pure (spelledByNumber_grounded _)
    · apply yields_redirected
      have htrack := hmem hdcIn
      simp only [List.mem_cons, List.not_mem_nil, or_false, hco, false_or] at htrack
      rcases htrack with h | h | h <;> simp [h, numberTracks]
  apply (yields_argIs task _ _).bind
  intro dcOut _
  apply yields_ite <;> intro _
  · exact Yields.noWitness _ _
  apply (yields_argIs task _ _).bind
  intro dsIn _
  apply yields_ite <;> intro _
  · exact Yields.noWitness _ _
  apply (yields_argIs task _ _).bind
  rintro dsOut ⟨hmemOut, -⟩
  apply yields_ite <;> intro hdsOut
  · have htrack := hmemOut hdsOut
    simp only [List.mem_cons, List.not_mem_nil, or_false] at htrack
    apply Yields.byName (by rcases htrack with h | h | h <;> simp [h, TaskSpecification.ByNumber])
    apply Yields.after
    intro _
    apply yields_redirected
    rcases htrack with h | h | h <;> simp [h, numberTracks]
  · rw [← byNumber_iff_of_not_in aaf]
    · exact yields_switchShown ω aaf _ task
    · intro ht
      obtain ⟨arg, harg, hbit⟩ := hget ht
      exact ⟨arg, harg, hbit.trans (Bool.eq_false_iff.2 hdcIn)⟩

end Spelling

theorem Yields.result {α : Type} {p : Prog World α} {Q : α → Prop} (h : Yields p Q) {k : ℕ}
    {w w' : World} {a : α} (hrun : p k w = (some a, w')) : Q a := by
  have hw := h k w trivial
  rw [Prog.Within, hrun] at hw
  exact hw.2

def ReadAaf.FromFile (r : ReadAaf n) : Prop :=
  ∃ file, readFileI23 file = some ⟨n, r⟩ ∨ readFileTgf file = some ⟨n, r⟩

theorem ReadAaf.FromFile.name_ne_nil {r : ReadAaf n} (h : r.FromFile) (i : Fin n) :
    (r.aaf.ids2arguments i).toList ≠ [] := by
  obtain ⟨file, h | h⟩ := h
  · rw [readFileI23_names h]
    exact argNumber_toList_ne_nil i
  · exact readFileTgf_name_ne_nil h i

/-- A line comes back if it gives numbers that are the names of the set as well, or names without
a blank. -/
theorem readsBack_iff {r : ReadAaf n} (hr : r.FromFile)
    (hd : Function.Injective r.aaf.ids2arguments) {s : Shown n} {b : Prop}
    (hs : s.spelling = .numbered ↔ b) :
    ReadsBack r.aaf (s.line r.aaf) s.set ↔
      (b → ∀ i ∈ s.set, ∃ j ∈ s.set, r.aaf.ids2arguments j = argNumber i) ∧
      (¬ b → ∀ i ∈ s.set, ' ' ∉ (r.aaf.ids2arguments i).toList) := by
  by_cases hb : b
  · rw [readsBack_numbered_iff hd (hs.2 hb)]
    simp [hb]
  · rw [readsBack_named_iff hd hr.name_ne_nil fun h => hb (hs.1 h)]
    simp [hb]

def Problem.ByNumber (F : Framework (Fin n)) : Problem n → Prop
  | query m σ a => WitnessByNumber F a m σ
  | _ => False

theorem Problem.byNumber_iff (aaf : AAF n) (p : Problem n) :
    p.task.ByNumber aaf ↔ p.ByNumber aaf.framework := by
  cases p with
  | query m σ a =>
    have hin : (computeGrounded aaf).1.labIn.get a = false ↔ a ∉ aaf.framework.grounded := by
      rw [← (computeGrounded_represents aaf).in_iff a, Bool.not_eq_true]
    cases m <;> cases σ <;>
      simp [TaskSpecification.ByNumber, task, Mode.track, ByNumber, WitnessByNumber, hin]
  | search σ =>
    cases σ <;> simp [TaskSpecification.ByNumber, task, Semantics.seTrack, ByNumber]
  | count κ => cases κ <;> simp [TaskSpecification.ByNumber, task, CountTrack.track, ByNumber]
  | accepted => simp [TaskSpecification.ByNumber, task, ByNumber]

/-- The names allow every set that the problem may hold to be read back: where numbers are given,
the number of each argument is the name of one; elsewhere no name contains a blank. -/
def Problem.Readable (aaf : AAF n) (p : Problem n) : Prop :=
  ∀ E, p.MayHold aaf.framework E →
    (p.ByNumber aaf.framework → ∀ i ∈ E, ∃ j ∈ E, aaf.ids2arguments j = argNumber i) ∧
    (¬ p.ByNumber aaf.framework → ∀ i ∈ E, ' ' ∉ (aaf.ids2arguments i).toList)

/-- Every run, whatever right solver it uses, ends, and the witness line comes back as the set held.
Only runs within `J` count. -/
def Problem.ReadBack (aaf : AAF n) (p : Problem n) (J : World → Prop) : Prop :=
  ∀ (ω : TotalOracle) w, J w → Prog.Total (taasShown ω.answer aaf p.task) (fun o w' =>
    J w' → ∀ s, o = some s → ReadsBack aaf (s.line aaf) s.set) w

/-- All lines come back iff all sets that may be held can be read back. -/
theorem Problem.readBack_iff {r : ReadAaf n} (hr : r.FromFile)
    (hd : Function.Injective r.aaf.ids2arguments) (p : Problem n) {J : World → Prop}
    (hJ : ∀ w, w.protocolOk = true → J w) : p.ReadBack r.aaf J ↔ p.Readable r.aaf := by
  have hspelled : ∀ (ω : TotalOracle) w, Prog.Total (taasShown ω.answer r.aaf p.task) (fun o _ =>
      SpelledByNumber (p.ByNumber r.aaf.framework) o) w := by
    intro ω w
    have hyields := yields_taasShown ω.answer r.aaf p.task
    rw [p.byNumber_iff r.aaf] at hyields
    exact ((total_taasShown ω r.aaf p w).and_within fun k => hyields k w trivial).mono
      fun o w' h => h.2.2
  constructor
  · intro h E hE
    obtain ⟨ω, hω⟩ := exists_held r.aaf p hE
    have hstart : (⟨0, "", true⟩ : World).protocolOk = true := rfl
    obtain ⟨o, w', hrun, hw', s, rfl, hs⟩ := hω _ hstart
    have hback := (h ω _ (hJ _ hstart)).of_returns hrun (hJ w' hw') s rfl
    rw [readsBack_iff hr hd ((hspelled ω _).of_returns hrun s rfl)] at hback
    rwa [← hs]
  · intro h ω w _
    apply ((total_taasShown ω r.aaf p w).and (hspelled ω w)).mono
    rintro o w' ⟨hheld, hspelling⟩ _ s hs
    rw [readsBack_iff hr hd (hspelling s hs)]
    exact h s.set (hheld.sound s hs)

/-- A run is the run up to the witness line and then the printing of the line. With every right
solver the line comes back as the set held iff, for every extension that the problem may hold, the
names allow it. It is the same for the runs that keep the protocol of ipasir.h. -/
theorem taasSolve_readsBack_iff {r : ReadAaf n} (hr : r.FromFile)
    (hd : Function.Injective r.aaf.ids2arguments) (p : Problem n) :
    (∀ ω, taasSolve r.aaf p.task (solveSwitch ω) =
      taasShown ω r.aaf p.task >>= printShown r.aaf) ∧
    (p.ReadBack r.aaf (fun _ => True) ↔ p.Readable r.aaf) ∧
    (p.ReadBack r.aaf (fun w => w.protocolOk = true) ↔ p.Readable r.aaf) := by
  refine ⟨fun ω => taasSolve_eq ω r.aaf p.task, ?_, ?_⟩
  · exact p.readBack_iff hr hd fun _ _ => trivial
  · exact p.readBack_iff hr hd fun _ hw => hw

/-- Names are numbers in the ICCMA23 format, where every witness line comes back. -/
theorem readFileI23_readsBack {file : List Char} {r : ReadAaf n}
    (h : readFileI23 file = some ⟨n, r⟩) (s : Shown n) :
    ReadsBack r.aaf (s.line r.aaf) s.set := by
  have hnames : r.aaf.ids2arguments = argNumber := funext (readFileI23_names h)
  have hd : Function.Injective r.aaf.ids2arguments := by
    rw [hnames]
    exact argNumber_injective
  by_cases hs : s.spelling = .numbered
  · rw [readsBack_numbered_iff hd hs]
    intro i hi
    exact ⟨i, hi, by rw [hnames]⟩
  · rw [readsBack_named_iff hd (ReadAaf.FromFile.name_ne_nil ⟨file, .inl h⟩) hs]
    intro i _
    rw [hnames]
    exact blank_notMem_argNumber i

def oneName : ReadAaf 1 := ReadAaf.start fun _ => "a"

theorem readFileTgf_oneName : readFileTgf "a\n#\n".toList = some ⟨1, oneName⟩ := by
  have hname : (fun i : Fin 1 => String.ofList ([['a']].get i)) = fun _ => "a" := by
    funext i
    rw [Subsingleton.elim i 0]
    rfl
  rw [oneName, ← hname]
  rfl

theorem oneName_injective : Function.Injective oneName.aaf.ids2arguments :=
  fun i j _ => Subsingleton.elim i j

/-- SE-ST prints the name. -/
theorem taasSolve_readsBack_oneName : (Problem.search .st).ReadBack oneName.aaf fun _ => True := by
  have hiff := (taasSolve_readsBack_iff ⟨_, .inr readFileTgf_oneName⟩ oneName_injective
    (.search .st)).2.1
  apply hiff.2
  intro E _
  constructor
  · exact False.elim
  · exact fun _ _ _ => (by decide : ' ' ∉ "a".toList)

theorem oneName_stable : oneName.aaf.framework.Stable {0} := by
  have hattacks : ∀ i j, ¬ oneName.aaf.framework.attacks i j := by
    simp only [AAF.attacks_iff]
    decide
  refine ⟨fun i _ j _ => hattacks i j, fun i hi => ?_⟩
  exact absurd (Subsingleton.elim i 0) hi

/-- DC-ST prints the number of the argument, which is no name. -/
theorem dcst_oneName : readFileTgf "a\n#\n".toList = some ⟨1, oneName⟩ ∧
    Function.Injective oneName.aaf.ids2arguments ∧
    (taasSolve oneName.aaf (Problem.query .dc .st 0).task (solveSwitch exhaustive.answer) 1
      ⟨0, "", true⟩).2.stdout = "YES\nw 1 \n" ∧
    ¬ (Problem.query .dc .st 0).ReadBack oneName.aaf fun w => w.protocolOk = true := by
  refine ⟨readFileTgf_oneName, oneName_injective, by decide, fun h => ?_⟩
  have hiff := Problem.readBack_iff ⟨_, .inr readFileTgf_oneName⟩ oneName_injective
    (.query .dc .st 0) fun w (hw : w.protocolOk = true) => hw
  have hreadable := (hiff.1 h {0} ⟨oneName_stable, by simp⟩).1 trivial
  obtain ⟨j, -, hname⟩ := hreadable 0 (Set.mem_singleton 0)
  rw [Subsingleton.elim j 0] at hname
  exact absurd hname (by decide)

end TaasFudge
