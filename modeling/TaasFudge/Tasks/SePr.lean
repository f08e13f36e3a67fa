import TaasFudge.Argumentation.Ideal
import TaasFudge.Taas.Grounded
import TaasFudge.Tasks.Shown

/-! # SE-PR

The set grows with every model that contains it properly; when there is none left
it is a preferred extension.
-/

namespace TaasFudge

open Dimacs

variable {n : ℕ}

/-- The solver object, the current set and a temporary set. -/
structure SeprState (n : ℕ) where
  solver : IpasirSolver
  admSet : RaSet n
  temp : RaSet n

section Program
variable (ω : Oracle) (aaf : AAF n) (grounded : Labeling) (inVars : Fin n → ℤ)

/-- New IN arguments go to the temporary set, arguments that are not IN to the clause. -/
def seprRead (solver : IpasirSolver) (admSet temp : RaSet n) : Prog World (RaSet n × List ℤ) :=
  (List.finRange n).foldlM (fun (p : RaSet n × List ℤ) (i : Fin n) => do
    let new ← pure !admSet.contains i <&&> satPos solver (inVars i)
    if new then pure (p.1.add i, p.2)
    else
      let neg ← satNeg solver (inVars i)
      pure (if neg then (p.1, p.2 ++ [inVars i]) else p)) (temp, [])

def seprRound (st : SeprState n) : Prog World (LoopStep (SeprState n) (RaSet n)) := do
  let (sat, solver) ← satSolve ω st.solver
  if sat = 20 then pure (.exit st.admSet)
  else
    let (temp, clause) ← seprRead inVars solver st.admSet st.temp
    let solver := satAddClause solver clause clause.length
    let p := temp.elementsArr.foldl (fun (p : RaSet n × IpasirSolver) i =>
      (p.1.add i, satAddClause1 p.2 (inVars i))) (st.admSet, solver)
    pure (.again ⟨p.2, p.1, temp.reset⟩)

def seprStart (solver : IpasirSolver) : Option (RaSet n) → SeprState n
  | none =>
    -- at least one argument is in the set
    let solver := (List.finRange n).foldl (fun solver (i : Fin n) => satAdd solver (inVars i)) solver
    ⟨satAdd solver 0, RaSet.initEmpty n, RaSet.initEmpty n⟩
  | some initialAdmSet =>
    -- at least one further argument is in the set
    let solver := (List.finRange n).foldl (fun solver (i : Fin n) =>
      if !initialAdmSet.contains i then satAdd solver (inVars i) else solver) solver
    let solver := initialAdmSet.elementsArr.foldl (fun solver i => satAddClause1 solver (inVars i))
      (satAdd solver 0)
    ⟨solver, initialAdmSet, RaSet.initEmpty n⟩

def solveSepr (initialAdmSet : Option (RaSet n)) : Prog World Unit := do
  let (inVars, outVars, _) := numberPairs n 1
  let (allGrounded, solver) := addAdmTestClauses satInit inVars outVars aaf grounded
  if allGrounded then printf (grounded.printI23 aaf ++ "\n")
  else
    let admSet ← Prog.loop (seprRound ω inVars) (seprStart inVars solver initialAdmSet)
    printf (admSet.printI23 aaf)

/-- What the task prints, as the set it holds at the end. -/
def seprShown (initialAdmSet : Option (RaSet n)) : Prog World (Shown n) :=
  let (inVars, outVars, _) := numberPairs n 1
  let (allGrounded, solver) := addAdmTestClauses satInit inVars outVars aaf grounded
  if allGrounded then pure (grounded.shown n)
  else do
    let admSet ← Prog.loop (seprRound ω inVars) (seprStart inVars solver initialAdmSet)
    pure admSet.shown

theorem solveSepr_eq (initialAdmSet : Option (RaSet n)) :
    solveSepr ω aaf grounded initialAdmSet = (do
      let s ← seprShown ω aaf grounded initialAdmSet
      printf (s.line aaf)) := by
  rw [solveSepr, seprShown]
  dsimp only
  split_ifs
  · rw [pure_bind, Labeling.shown_line]
  · simp only [bind_assoc, pure_bind, RaSet.shown_line]

end Program

section Correctness
variable {aaf : AAF n} {grounded : Labeling} {inVars outVars : Fin n → ℤ}

/-- A loop that sorts the arguments into a set and a clause. -/
theorem foldl_sort {p q : Fin n → Bool} (hpq : ∀ i, q i = true → p i = false) (v : Fin n → ℤ)
    (xs : List (Fin n)) (s : RaSet n) (c : List ℤ) :
    xs.foldl (fun (acc : RaSet n × List ℤ) i =>
      if p i then (acc.1.add i, acc.2) else if q i then (acc.1, acc.2 ++ [v i]) else acc) (s, c) =
      ((xs.filter p).foldl RaSet.add s, c ++ (xs.filter q).map v) := by
  induction xs generalizing s c with
  | nil => simp
  | cons x xs ih =>
    rw [List.foldl_cons, List.filter_cons, List.filter_cons]
    rcases hp : p x with _ | _
    · rcases hq : q x with _ | _ <;> simp [ih]
    · have hq : q x = false := by
        rw [Bool.eq_false_iff]
        exact fun h => by simp [hpq x h] at hp
      simp [hq, ih]

theorem seprRead_of_sat {solver : IpasirSolver} (h : solver.state = .sat) (admSet temp : RaSet n) :
    seprRead inVars solver admSet temp =
      pure (((List.finRange n).filter fun i : Fin n =>
          !admSet.contains i && decide (0 < solver.model.value (inVars i))).foldl RaSet.add temp,
        (negatives solver.model inVars).map inVars) := by
  have hbody : ∀ (p : RaSet n × List ℤ) (i : Fin n), (do
      let new ← pure !admSet.contains i <&&> satPos solver (inVars i)
      if new then pure (p.1.add i, p.2)
      else
        let neg ← satNeg solver (inVars i)
        pure (if neg then (p.1, p.2 ++ [inVars i]) else p) : Prog World (RaSet n × List ℤ)) =
      pure (if !admSet.contains i && decide (0 < solver.model.value (inVars i))
        then (p.1.add i, p.2)
        else if decide (solver.model.value (inVars i) < 0) then (p.1, p.2 ++ [inVars i]) else p) := by
    intro p i
    rw [satPos_of_sat h, satNeg_of_sat h, andM, pure_bind]
    rcases admSet.contains i
    · rcases decide (0 < solver.model.value (inVars i)) <;> rfl
    · rfl
  simp only [seprRead, hbody, List.foldlM_pure]
  rw [foldl_sort, List.nil_append, negatives]
  intro i hi
  have hneg := of_decide_eq_true hi
  have hpos : ¬ 0 < solver.model.value (inVars i) := by omega
  simp [hpos]

/-- A loop that adds elements to a set and imposes each of them. -/
theorem foldl_impose (hv : ∀ i, inVars i ≠ 0) (xs : List (Fin n)) (s : RaSet n)
    (solver : IpasirSolver) :
    xs.foldl (fun (p : RaSet n × IpasirSolver) i => (p.1.add i, satAddClause1 p.2 (inVars i)))
      (s, solver) = (xs.foldl RaSet.add s, solver.pushAll (xs.map fun i => [inVars i])) := by
  induction xs generalizing s solver with
  | nil => rfl
  | cons x xs ih => rw [List.foldl_cons, ih, satAddClause1_eq (hv x)]; rfl

/-- The labellings the search still looks for: larger than the current set. -/
def Larger (aaf : AAF n) (A : Set (Fin n)) (b : Set (Fin n) × Set (Fin n)) : Prop :=
  aaf.framework.AdmissibleLabelling b.1 b.2 ∧ A ⊆ b.1 ∧ ¬ b.1 ⊆ A

/-- The invariant of the loop: the set is admissible and contains the initial one. -/
structure SeprInv (aaf : AAF n) (inVars outVars : Fin n → ℤ) (initial : Set (Fin n))
    (st : SeprState n) : Prop where
  describes : st.solver.Describes (labels inVars outVars) (Larger aaf st.admSet.toSet)
  admissible : aaf.framework.Admissible st.admSet.toSet
  initial_subset : initial ⊆ st.admSet.toSet
  temp_empty : ∀ i, i ∉ st.temp

theorem preferred_of_not_larger {A : Set (Fin n)} (hA : aaf.framework.Admissible A)
    (h : ∀ b, ¬ Larger aaf A b) : aaf.framework.Preferred A := by
  obtain ⟨P, hAP, hP⟩ := hA.exists_preferred
  have hPA : P ⊆ A := by
    by_contra hno
    exact h (P, _) ⟨hP.prop.labelling hP.grounded_subset, hAP, hno⟩
  rwa [hPA.antisymm hAP] at hP

/-- What a round makes of a model: the IN set of the model is the next current set. -/
theorem seprRound_step (hv : LabelVars inVars outVars) {initial : Set (Fin n)} {st : SeprState n}
    (h : SeprInv aaf inVars outVars initial st) {τ : Assignment} {temp : RaSet n}
    (hτ : Larger aaf st.admSet.toSet (labels inVars outVars τ))
    (htemp : ∀ i, i ∈ temp ↔ i ∉ st.admSet ∧ i ∈ selected τ inVars) :
    SeprInv aaf inVars outVars initial
      ⟨((st.solver.satisfied τ.model).push ((negatives τ.model inVars).map inVars)).pushAll
          (temp.elementsArr.map fun i => [inVars i]),
        temp.elementsArr.foldl RaSet.add st.admSet, temp.reset⟩ ∧
      st.admSet.toSet ⊂ (temp.elementsArr.foldl RaSet.add st.admSet).toSet := by
  have hsub : st.admSet.toSet ⊆ selected τ inVars := hτ.2.1
  have hset : (temp.elementsArr.foldl RaSet.add st.admSet).toSet = selected τ inVars := by
    ext i
    rw [RaSet.mem_toSet, RaSet.mem_foldl_add, ← RaSet.mem_def, htemp]
    by_cases hi : i ∈ st.admSet
    · simpa only [hi, true_or, true_iff] using hsub hi
    · simp [hi]
  refine ⟨⟨?_, ?_, ?_, fun i => RaSet.mem_reset⟩, ?_⟩
  · rw [hset]
    refine ((h.describes.satisfied τ.model).push (P := fun b => ¬ b.1 ⊆ selected τ inVars)
      fun υ => satisfies_negatives hv.in_pos).pushAll
      (P := fun b => ∀ i ∈ temp, i ∈ b.1) (fun υ => satisfies_units _) |>.congr fun b => ?_
    constructor
    · rintro ⟨⟨hb, hnew⟩, htb⟩
      refine ⟨hb.1, fun i hi => ?_, hnew⟩
      by_cases hiA : i ∈ st.admSet
      · exact hb.2.1 hiA
      · exact htb i ((htemp i).2 ⟨hiA, hi⟩)
    · rintro ⟨hb, hsub, hnew⟩
      refine ⟨⟨⟨hb, hτ.2.1.trans hsub, fun hbA => hnew (hbA.trans hτ.2.1)⟩, hnew⟩, ?_⟩
      exact fun i hi => hsub ((htemp i).1 hi).2
  · rw [hset]
    exact hτ.1.admissible
  · rw [hset]
    exact h.initial_subset.trans hτ.2.1
  · rw [hset]
    exact ⟨hτ.2.1, hτ.2.2⟩

theorem total_seprRound (ω : TotalOracle) (hv : LabelVars inVars outVars) {initial : Set (Fin n)}
    {st : SeprState n} {w₀ w : World} (h : SeprInv aaf inVars outVars initial st)
    (hw : w.stdout = w₀.stdout) :
    Prog.Total (seprRound ω.answer inVars st) (LoopStep.post
      (fun st' w' => (SeprInv aaf inVars outVars initial st' ∧ w'.stdout = w₀.stdout) ∧
        n - st'.admSet.numberOfElements < n - st.admSet.numberOfElements)
      fun s w' => (aaf.framework.Preferred s.toSet ∧ initial ⊆ s.toSet) ∧
        w'.stdout = w₀.stdout) w := by
  refine Prog.Total.bind ?_
  refine h.describes.total_satSolve ω [] (A := fun _ => True) (fun τ => by simp) ?_ ?_
  · intro τ w' hτ _ hw'
    dsimp only
    rw [if_neg (by decide), seprRead_of_sat rfl, pure_bind]
    dsimp only
    rw [satAddClause_eq fun l => ne_zero_of_mem_map hv.in_ne, List.take_length,
      foldl_impose hv.in_ne, Prog.total_pure]
    have htemp : ∀ i, i ∈ ((List.finRange n).filter fun i : Fin n => !st.admSet.contains i &&
        decide (0 < τ.model.value (inVars i))).foldl RaSet.add st.temp ↔
          i ∉ st.admSet ∧ i ∈ selected τ inVars := by
      intro i
      rw [RaSet.mem_foldl_add]
      simp [h.temp_empty, τ.value_pos_iff (hv.in_pos i), Bool.eq_false_iff]
    obtain ⟨hinv, hlt⟩ := seprRound_step hv h hτ htemp
    exact ⟨⟨hinv, hw'.trans hw⟩, RaSet.room_lt hlt⟩
  · intro w' hno hw'
    dsimp only
    rw [if_pos rfl, Prog.total_pure]
    exact ⟨⟨preferred_of_not_larger h.admissible fun b hb => hno b hb trivial,
      h.initial_subset⟩, hw'.trans hw⟩

/-- The clause that asks for an argument outside the initial set. -/
theorem satisfies_outside {τ : Assignment} (s : RaSet n) :
    τ.Satisfies (((List.finRange n).filter fun i : Fin n => !s.contains i).map inVars) ↔
      ¬ selected τ inVars ⊆ s.toSet := by
  rw [Assignment.satisfies_map, Set.not_subset]
  simp [and_comm]

/-- The object before the first search looks for labellings larger than the initial set. -/
theorem seprStart_inv (hv : LabelVars inVars outVars) {solver : IpasirSolver}
    (hdesc : solver.Describes (labels inVars outVars) fun b =>
      aaf.framework.AdmissibleLabelling b.1 b.2)
    {initialAdmSet : Option (RaSet n)}
    (hinit : ∀ s ∈ initialAdmSet, aaf.framework.Admissible s.toSet) :
    SeprInv aaf inVars outVars {i | ∃ s ∈ initialAdmSet, i ∈ s}
      (seprStart inVars solver initialAdmSet) := by
  have hfold : ∀ s : RaSet n, (satAdd ((List.finRange n).foldl (fun solver (i : Fin n) =>
      if !s.contains i then satAdd solver (inVars i) else solver) solver) 0).Describes
        (labels inVars outVars) fun b =>
          aaf.framework.AdmissibleLabelling b.1 b.2 ∧ ¬ b.1 ⊆ s.toSet := by
    intro s
    rw [satAdd_zero_foldl_filter _ (fun i : Fin n => !s.contains i) hv.in_ne]
    exact hdesc.push fun τ => satisfies_outside s
  cases initialAdmSet with
  | none =>
    have hempty : (RaSet.initEmpty n).toSet = ∅ := by ext i; simp
    refine ⟨?_, ?_, by simp, by simp [seprStart]⟩
    · have h := hfold (RaSet.initEmpty n)
      simp only [RaSet.contains_eq_false_iff.2 RaSet.mem_initEmpty, Bool.not_false, if_true] at h
      exact h.congr fun b => by simp [Larger, seprStart, hempty]
    · simp only [seprStart, hempty]
      exact Framework.admissible_empty
  | some s =>
    refine ⟨?_, hinit s rfl, ?_, by simp [seprStart]⟩
    swap
    · rintro i ⟨t, ht, hi⟩
      cases ht
      exact hi
    simp only [seprStart]
    rw [foldl_units hv.in_ne]
    refine ((hfold s).pushAll (P := fun b => ∀ i ∈ s, i ∈ b.1)
      fun τ => satisfies_units _).congr fun b => ?_
    exact ⟨fun h => ⟨h.1.1, h.2, h.1.2⟩, fun h => ⟨⟨h.1, h.2.2⟩, h.2.1⟩⟩

/-- The set held at the end is a preferred extension that contains the initial set. -/
theorem total_seprShown_preferred (ω : TotalOracle) (hg : Grounds aaf grounded)
    {initialAdmSet : Option (RaSet n)}
    (hinit : ∀ s ∈ initialAdmSet, aaf.framework.Admissible s.toSet) (w : World) :
    Prog.Total (seprShown ω.answer aaf grounded initialAdmSet) (fun s w' =>
      (aaf.framework.Preferred s.set ∧ ∀ t ∈ initialAdmSet, t.toSet ⊆ s.set) ∧
        s.spelling ≠ .numbered ∧ w'.stdout = w.stdout) w := by
  have hv := labelVars_numberPairs n Int.one_pos
  rcases hnp : numberPairs n 1 with ⟨inVars, outVars, idx⟩
  simp only [hnp] at hv
  have henc := addAdmTestClauses_encodes hv hg
  have hdesc := henc.describes hv
  rw [seprShown, hnp]
  dsimp only
  rw [henc.eq] at hdesc ⊢
  dsimp only at hdesc ⊢
  split_ifs with hall
  · have htotal := (allGrounded_iff hg).1 hall
    rw [Prog.total_pure, hg.shown_set]
    refine ⟨⟨htotal.preferred_iff.2 rfl, fun s hs => ?_⟩, by simp [Labeling.shown], rfl⟩
    obtain ⟨P, hsP, hP⟩ := (hinit s hs).exists_preferred
    exact htotal.preferred_iff.1 hP ▸ hsP
  · refine Prog.Total.bind (Prog.Total.mono (Prog.Total.loop
      (fun st w' => SeprInv aaf inVars outVars {i | ∃ s ∈ initialAdmSet, i ∈ s} st ∧
        w'.stdout = w.stdout)
      (fun st => n - st.admSet.numberOfElements)
      (Q := fun s w' => (aaf.framework.Preferred s.toSet ∧
        {i | ∃ s ∈ initialAdmSet, i ∈ s} ⊆ s.toSet) ∧ w'.stdout = w.stdout)
      (fun st w' h => total_seprRound ω hv h.1 h.2) ⟨seprStart_inv hv hdesc hinit, rfl⟩) ?_)
    rintro s w' ⟨⟨hpref, hsub⟩, hw'⟩
    rw [Prog.total_pure, RaSet.shown_set]
    exact ⟨⟨hpref, fun t ht i hi => hsub ⟨t, ht, hi⟩⟩, by simp [RaSet.shown], hw'⟩

/-- The printed set is a preferred extension that contains the initial set. -/
theorem total_solveSepr (ω : TotalOracle) (hg : Grounds aaf grounded)
    {initialAdmSet : Option (RaSet n)}
    (hinit : ∀ s ∈ initialAdmSet, aaf.framework.Admissible s.toSet) (w : World) :
    Prog.Total (solveSepr ω.answer aaf grounded initialAdmSet) (fun _ w' => ∃ line,
      GivesWitness aaf (fun E => aaf.framework.Preferred E ∧
        ∀ s ∈ initialAdmSet, s.toSet ⊆ E) line ∧ w'.stdout = w.stdout ++ line) w := by
  rw [solveSepr_eq]
  apply Prog.Total.bind
  apply (total_seprShown_preferred ω hg hinit w).mono
  rintro s w' ⟨hset, hspelling, hw'⟩
  apply Prog.total_atomic.2
  exact ⟨_, ⟨s.set, hset, s.witnessLine hspelling aaf⟩, by rw [hw']⟩

/-- SE-PR prints a preferred extension, and from an admissible set one that contains it. -/
theorem solveSepr_preferred (ω : TotalOracle) (aaf : AAF n) (w : World) :
    Prog.Total (solveSepr ω.answer aaf (computeGrounded aaf).1 none) (fun _ w' => ∃ E line,
      aaf.framework.Preferred E ∧ WitnessLine aaf E line ∧ w'.stdout = w.stdout ++ line) w ∧
    ∀ s : RaSet n, aaf.framework.Admissible s.toSet →
      Prog.Total (solveSepr ω.answer aaf (computeGrounded aaf).1 (some s)) (fun _ w' => ∃ E line,
        aaf.framework.Preferred E ∧ s.toSet ⊆ E ∧ WitnessLine aaf E line ∧
        w'.stdout = w.stdout ++ line) w := by
  have hg := computeGrounded_represents aaf
  constructor
  · apply (total_solveSepr ω hg (by simp) w).mono
    rintro _ w' ⟨line, ⟨E, hE, hline⟩, hw'⟩
    exact ⟨E, line, hE.1, hline, hw'⟩
  · intro s hs
    apply (total_solveSepr ω hg (by simpa using hs) w).mono
    rintro _ w' ⟨line, ⟨E, hE, hline⟩, hw'⟩
    exact ⟨E, line, hE.1, hE.2 s rfl, hline, hw'⟩

end Correctness

end TaasFudge
