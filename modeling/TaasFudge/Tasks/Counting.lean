import TaasFudge.Program.Cost
import TaasFudge.Tasks.CePr
import TaasFudge.Tasks.Complete

/-! # CE-CO and CE-ST

Both tasks search for one extension after the other and block what they find, CE-CO the IN
set itself, CE-ST all its subsets. Either way a blocking clause excludes one extension, since
no stable extension contains another, and the counter tells how many are excluded.
-/

namespace TaasFudge

open Dimacs

variable {n : ℕ}

/-- A round of counting with a clause that is read off the model. -/
def countRound (ω : Oracle) (read : IpasirSolver → Prog World (List ℤ)) (st : IpasirSolver × Int32) :
    Prog World (LoopStep (IpasirSolver × Int32) Int32) := do
  let (sat, solver) ← satSolve ω st.1
  if sat = 10 then
    let clause ← read solver
    if clause.length = 0 then pure (.exit (st.2 + 1))
    else pure (.again (satAddClause solver clause clause.length, st.2 + 1))
  else pure (.exit st.2)

/-- The loop by which CE-CO reads a model: every argument gives a literal. -/
def readBlocking (solver : IpasirSolver) (inVars : Fin n → ℤ) : Prog World (List ℤ) :=
  (List.finRange n).foldlM (fun (clause : List ℤ) (i : Fin n) => do
    let pos ← satPos solver (inVars i)
    pure (if pos then clause ++ [-inVars i] else clause ++ [inVars i])) []

theorem cestRound_eq (ω : Oracle) (inVars : Fin n → ℤ) :
    cestRound ω inVars = countRound ω fun solver => readNegatives solver inVars := rfl

theorem cecoRound_eq (ω : Oracle) (inVars : Fin n → ℤ) :
    cecoRound ω inVars = countRound ω fun solver => readBlocking solver inVars := rfl

section Invariant
variable {P : Set (Fin n) → Prop} {Q : Set (Fin n) → Set (Fin n) → Prop} {vars : Fin n → ℤ}
  {C : Set (Set (Fin n))} {p : IpasirSolver × Int32} {S : Set (Fin n)} {E : Prop}

/-- The extensions in `C` have been counted, and the models are those that have not. -/
structure Counting (P : Set (Fin n) → Prop) (vars : Fin n → ℤ) (C : Set (Set (Fin n)))
    (p : IpasirSolver × Int32) : Prop where
  describes : p.1.Describes (fun τ => selected τ vars) fun S => P S ∧ S ∉ C
  counted : ∀ S ∈ C, P S
  count : p.2 = Int32.ofNat C.ncard

/-- A clause for each model that excludes, among the extensions, only the one found. What it
excludes besides them is described by `Q`. -/
structure Blocks (P : Set (Fin n) → Prop) (Q : Set (Fin n) → Set (Fin n) → Prop)
    (vars : Fin n → ℤ) (read : IpasirSolver → Prog World (List ℤ))
    (clause : Assignment → List ℤ) : Prop where
  read_eq : ∀ (solver : IpasirSolver) (τ : Assignment),
    read (solver.satisfied τ.model) = pure (clause τ)
  ne_zero : ∀ τ, ∀ l ∈ clause τ, l ≠ 0
  satisfies_iff : ∀ τ υ : Assignment, υ.Satisfies (clause τ) ↔ Q (selected τ vars) (selected υ vars)
  excludes : ∀ S T, P S → P T → (Q S T ↔ T ≠ S)

theorem Counting.start {solver : IpasirSolver} (h : solver.Describes (fun τ => selected τ vars) P) :
    Counting P vars ∅ (solver, 0) := by
  refine ⟨h.congr fun S => ?_, nofun, by rw [Set.ncard_empty]; rfl⟩
  simp

theorem Counting.next (h : Counting P vars C p) {read : IpasirSolver → Prog World (List ℤ)}
    {clause : Assignment → List ℤ} (hb : Blocks P Q vars read clause) {τ : Assignment}
    (hτ : P (selected τ vars)) (hnew : selected τ vars ∉ C) :
    Counting P vars (insert (selected τ vars) C)
      ((p.1.satisfied τ.model).push (clause τ), p.2 + 1) := by
  refine ⟨?_, ?_, ?_⟩
  · apply ((h.describes.satisfied τ.model).push (P := Q (selected τ vars))
      fun υ => hb.satisfies_iff τ υ).congr
    intro T
    rw [Set.mem_insert_iff, not_or, and_assoc, and_comm (a := T ∉ C)]
    apply and_congr_right
    intro hT
    rw [hb.excludes _ T hτ hT]
  · rintro T (rfl | hT)
    · exact hτ
    · exact h.counted T hT
  · rw [Set.ncard_insert_of_notMem hnew (Set.toFinite C), Int32.ofNat_add, h.count]
    rfl

theorem Counting.eq_of_forall_mem (h : Counting P vars C p) (hall : ∀ S, P S → S ∈ C) :
    {S | P S} = C := by
  ext S
  exact ⟨hall S, h.counted S⟩

theorem Counting.ncard_lt (h : Counting P vars C p) (hS : P S) (hnew : S ∉ C) :
    C.ncard < {S | P S}.ncard := by
  apply Set.ncard_lt_ncard _ (Set.toFinite _)
  exact ⟨h.counted, fun hsub => hnew (hsub hS)⟩

/-- A clause without literals excludes everything, so nothing else is left. -/
theorem Blocks.eq_of_nil {read : IpasirSolver → Prog World (List ℤ)}
    {clause : Assignment → List ℤ} (hb : Blocks P Q vars read clause) {τ υ : Assignment}
    (hτ : P (selected τ vars)) (hυ : P (selected υ vars)) (hnil : clause τ = []) :
    selected υ vars = selected τ vars := by
  by_contra hne
  have hsat := (hb.satisfies_iff τ υ).2 ((hb.excludes _ _ hτ hυ).2 hne)
  rw [hnil] at hsat
  exact υ.satisfies_nil hsat

/-- A round is one search. It counts another extension, which is the last one if the clause that
excludes it has no literals, as `E` foretells; or all extensions have been counted. -/
theorem total_countRound (ω : TotalOracle) {read : IpasirSolver → Prog World (List ℤ)}
    {clause : Assignment → List ℤ} (hb : Blocks P Q vars read clause)
    (hnil : ∀ τ : Assignment, P (selected τ vars) → (clause τ = [] ↔ E)) {w : World}
    (h : Counting P vars C p) : Prog.Total (countRound ω.answer read p) (LoopStep.post
      (fun p' w' => ∃ S, P S ∧ S ∉ C ∧ Counting P vars (insert S C) p' ∧ ¬ E ∧
        w'.stdout = w.stdout ∧ w'.calls = w.calls + 1)
      fun count w' => ∃ D, {S | P S} = D ∧ count = Int32.ofNat D.ncard ∧
        (E ∧ D.ncard = C.ncard + 1 ∨ D = C) ∧
        w'.stdout = w.stdout ∧ w'.calls = w.calls + 1) w := by
  apply Prog.Total.bind
  apply h.describes.total_search ω [] (A := fun _ => True) (fun τ => by simp)
  · intro τ w' hτ _ hw'
    dsimp only
    have hnext := h.next hb hτ.1 hτ.2
    rw [if_pos rfl, hb.read_eq, pure_bind]
    by_cases hclause : clause τ = []
    · rw [hclause, if_pos List.length_nil, Prog.total_pure]
      have hall : {S | P S} = insert (selected τ vars) C := by
        apply hnext.eq_of_forall_mem
        intro S hS
        by_cases hC : S ∈ C
        · exact Set.mem_insert_of_mem _ hC
        · obtain ⟨υ, -, hυ⟩ := h.describes.complete S ⟨hS, hC⟩
          rw [← hυ] at hS ⊢
          rw [hb.eq_of_nil hτ.1 hS hclause]
          exact Set.mem_insert _ _
      refine ⟨_, hall, hnext.count, .inl ⟨(hnil τ hτ.1).1 hclause, ?_⟩, hw'⟩
      exact Set.ncard_insert_of_notMem hτ.2 (Set.toFinite C)
    · have hlen : (clause τ).length ≠ 0 := fun h0 => hclause (List.length_eq_zero_iff.1 h0)
      rw [if_neg hlen, Prog.total_pure, satAddClause_eq (hb.ne_zero τ), List.take_length]
      exact ⟨_, hτ.1, hτ.2, hnext, fun hE => hclause ((hnil τ hτ.1).2 hE), hw'⟩
  · intro w' hno hw'
    dsimp only
    rw [if_neg (by decide), Prog.total_pure]
    refine ⟨C, h.eq_of_forall_mem fun S hS => ?_, h.count, .inr rfl, hw'⟩
    by_contra hC
    exact hno S ⟨hS, hC⟩ trivial

/-- Counting until nothing is found any more takes a search for each extension, and one more
unless the last clause shows that there is no other. -/
theorem total_countLoop [Decidable E] (ω : TotalOracle)
    {read : IpasirSolver → Prog World (List ℤ)} {clause : Assignment → List ℤ}
    (hb : Blocks P Q vars read clause)
    (hnil : ∀ τ : Assignment, P (selected τ vars) → (clause τ = [] ↔ E)) (hE : E → ∃ S, P S)
    {solver : IpasirSolver} (h : solver.Describes (fun τ => selected τ vars) P) (w : World) :
    Prog.Total (Prog.loop (countRound ω.answer read) (solver, 0)) (fun count w' =>
      count = Int32.ofNat {S | P S}.ncard ∧ w'.stdout = w.stdout ∧
        w'.calls = w.calls + ({S | P S}.ncard + if E then 0 else 1)) w := by
  apply Prog.Total.loop_indexed
    (fun C p w' => Counting P vars C p ∧ w'.stdout = w.stdout ∧
      w'.calls = w.calls + C.ncard ∧ (E → C = ∅))
    (fun C => {S | P S}.ncard - C.ncard) _ ⟨Counting.start h, rfl, by simp, fun _ => rfl⟩
  rintro C p w₁ ⟨hC, hw₁, hcalls, hfirst⟩
  apply (total_countRound ω hb hnil hC).mono
  rintro x w₂ hx
  cases x with
  | again p' =>
    obtain ⟨S, hS, hnew, hnext, hnE, hw₂, hcalls₂⟩ := hx
    have hlt := hC.ncard_lt hS hnew
    have hcard := Set.ncard_insert_of_notMem hnew (Set.toFinite C)
    refine ⟨insert S C, ⟨hnext, hw₂.trans hw₁, ?_, fun h => absurd h hnE⟩, ?_⟩
    · omega
    · omega
  | exit count =>
    obtain ⟨D, rfl, hcount, hlast, hw₂, hcalls₂⟩ := hx
    refine ⟨hcount, hw₂.trans hw₁, ?_⟩
    rcases hlast with ⟨hE', hcard⟩ | rfl
    · rw [if_pos hE']
      omega
    · split_ifs with hE'
      · -- there is an extension, and it would have been counted
        obtain ⟨S, hS⟩ := hE hE'
        have hmem : S ∈ {S | P S} := hS
        rw [hfirst hE'] at hmem
        exact hmem.elim
      · omega

end Invariant

section Clauses
variable {vars : Fin n → ℤ}

theorem readNegatives_of_sat {solver : IpasirSolver} (h : solver.state = .sat) :
    readNegatives solver vars = pure ((negatives solver.model vars).map vars) := by
  have hfold : ∀ (xs : List (Fin n)) (c : List ℤ),
      xs.foldl (fun c i => if decide (solver.model.value (vars i) < 0) then c ++ [vars i] else c) c =
        c ++ (xs.filter fun i => decide (solver.model.value (vars i) < 0)).map vars := by
    intro xs c
    exact foldl_collect (fun i => decide (solver.model.value (vars i) < 0)) vars xs c
  simp only [readNegatives, satNeg_of_sat h, pure_bind, List.foldlM_pure]
  rw [hfold, List.nil_append, negatives]

/-- The clause excludes all subsets of a stable extension, which are no stable extensions. -/
theorem blocks_readNegatives {aaf : AAF n} (hpos : ∀ i, 0 < vars i) :
    Blocks aaf.framework.Stable (fun S T => ¬ T ⊆ S) vars
      (fun solver => readNegatives solver vars)
      (fun τ => (negatives τ.model vars).map vars) where
  read_eq _ _ := readNegatives_of_sat rfl
  ne_zero _ _ := ne_zero_of_mem_map fun i => (hpos i).ne'
  satisfies_iff _ _ := satisfies_negatives hpos
  excludes S T hS hT := by
    constructor
    · rintro hsub rfl
      exact hsub subset_rfl
    · intro hne hsub
      exact hne (hT.eq_of_subset hS hsub)

def blockingClause (vars : Fin n → ℤ) (m : PartialModel) : List ℤ :=
  (List.finRange n).map fun i : Fin n => if 0 < m.value (vars i) then -vars i else vars i

theorem readBlocking_of_sat {solver : IpasirSolver} (h : solver.state = .sat) :
    readBlocking solver vars = pure (blockingClause vars solver.model) := by
  have hfold : ∀ (xs : List (Fin n)) (c : List ℤ),
      xs.foldl (fun c i => if decide (0 < solver.model.value (vars i)) then c ++ [-vars i]
        else c ++ [vars i]) c =
        c ++ xs.map fun i => if 0 < solver.model.value (vars i) then -vars i else vars i := by
    intro xs
    induction xs with
    | nil => simp
    | cons x xs ih =>
      intro c
      rw [List.foldl_cons, ih]
      by_cases hx : 0 < solver.model.value (vars x)
      · simp [hx]
      · simp [hx]
  simp only [readBlocking, satPos_of_sat h, pure_bind, List.foldlM_pure]
  rw [hfold, List.nil_append, blockingClause]

/-- The clause excludes the IN set found and no other. -/
theorem satisfies_blockingClause (hpos : ∀ i, 0 < vars i) (τ υ : Assignment) :
    υ.Satisfies (blockingClause vars τ.model) ↔ selected υ vars ≠ selected τ vars := by
  have hlit : ∀ i, υ.lit (if 0 < τ.model.value (vars i) then -vars i else vars i) = true ↔
      ¬ (i ∈ selected υ vars ↔ i ∈ selected τ vars) := by
    intro i
    simp only [τ.value_pos_iff (hpos i), mem_selected]
    by_cases hi : τ.lit (vars i) = true
    · simp [hi, υ.lit_neg (hpos i)]
    · simp [hi]
  rw [blockingClause, Assignment.satisfies_map, ne_eq, Set.ext_iff, not_forall]
  simp only [hlit, List.mem_finRange, true_and]

theorem blocks_readBlocking {P : Set (Fin n) → Prop} (hpos : ∀ i, 0 < vars i) :
    Blocks P (fun S T => T ≠ S) vars (fun solver => readBlocking solver vars)
      (fun τ => blockingClause vars τ.model) where
  read_eq _ _ := readBlocking_of_sat rfl
  ne_zero τ l hl := by
    apply ne_zero_of_mem_map _ hl
    intro i
    split_ifs
    · exact neg_ne_zero.2 (hpos i).ne'
    · exact (hpos i).ne'
  satisfies_iff τ υ := satisfies_blockingClause hpos τ υ
  excludes _ _ _ _ := Iff.rfl

end Clauses

section Correctness
variable {aaf : AAF n} {grounded : Labeling}

/-- Seen through their IN sets, the models are the complete extensions. -/
theorem addComTestClauses_describes_in {inVars outVars : Fin n → ℤ}
    (hv : LabelVars inVars outVars) (hg : Grounds aaf grounded) :
    (addComTestClauses satInit inVars outVars aaf grounded).Describes
      (fun τ => selected τ inVars) aaf.framework.Complete := by
  have h := addComTestClauses_describes hv hg
  refine ⟨h.closed, h.unassumed, fun τ hτ => (h.sound τ hτ).complete, fun S hS => ?_⟩
  obtain ⟨τ, hτ, hS'⟩ := h.complete (S, aaf.framework.attackedBy S) hS.labelling
  exact ⟨τ, hτ, congrArg Prod.fst hS'⟩

theorem total_solveCeco (ω : TotalOracle) (aaf : AAF n) (w : World) :
    Prog.Total (solveCeco ω.answer aaf (computeGrounded aaf).1) (fun _ w' =>
      PrintsCount aaf.framework.Complete w w' ∧
        w'.calls = w.calls + ({E | aaf.framework.Complete E}.ncard + if n = 0 then 0 else 1)) w := by
  have hg := computeGrounded_represents aaf
  have hv := labelVars_numberPairs n Int.one_pos
  have hnil : ∀ τ : Assignment, aaf.framework.Complete (selected τ (numberPairs n 1).1) →
      (blockingClause (numberPairs n 1).1 τ.model = [] ↔ n = 0) := by
    intro τ _
    rw [blockingClause, List.map_eq_nil_iff, List.finRange_eq_nil_iff]
  rw [solveCeco]
  dsimp only
  rw [cecoRound_eq]
  apply Prog.Total.bind
  apply (total_countLoop ω (blocks_readBlocking hv.in_pos) hnil
    (fun _ => ⟨_, Framework.grounded_complete⟩) (addComTestClauses_describes_in hv hg) w).mono
  rintro count w' ⟨rfl, hw', hcalls⟩
  apply Prog.total_atomic.2
  exact ⟨PrintsCount.of_ofNat (by rw [← hw']), hcalls⟩

/-- CE-CO terminates. It prints the number of complete extensions exactly if the counter can hold
it. -/
theorem solveCeco_counts_iff (ω : TotalOracle) (aaf : AAF n) (w : World) :
    Prog.Total (solveCeco ω.answer aaf (computeGrounded aaf).1) (fun _ w' => w'.stdout =
      w.stdout ++ (toString {E | aaf.framework.Complete E}.ncard ++ "\n") ↔
        {E | aaf.framework.Complete E}.ncard ≤ intMax) w :=
  (total_solveCeco ω aaf w).mono fun _ _ h => h.1.eq_iff

/-- The complete extensions of 31 pairs of rivals are not counted. -/
theorem solveCeco_rivals :
    ¬ Prog.Total (solveCeco exhaustive.answer (rivals 31) (computeGrounded (rivals 31)).1)
      (fun _ w' => w'.stdout =
        "" ++ (toString {E | (rivals 31).framework.Complete E}.ncard ++ "\n")) ⟨0, "", true⟩ :=
  PrintsCount.not_total ((total_solveCeco exhaustive (rivals 31) _).mono fun _ _ h => h.1)
    (intMax_lt_ncard_of_stable fun _ h => h.complete)

theorem stable_univ_iff : aaf.framework.Stable Set.univ ↔ ∀ i, aaf.parents i = [] := by
  constructor
  · intro h i
    apply List.eq_nil_iff_forall_not_mem.2
    exact fun j hj => h.conflictFree j trivial i trivial (AAF.attacks_iff.2 hj)
  · intro h
    constructor
    · intro j _ i _ hji
      rw [AAF.attacks_iff, h i] at hji
      exact List.not_mem_nil hji
    · exact fun i hi => absurd trivial hi

theorem total_solveCest (ω : TotalOracle) (aaf : AAF n) (w : World) :
    Prog.Total (solveCest ω.answer aaf (computeGrounded aaf).1) (fun _ w' =>
      PrintsCount aaf.framework.Stable w w' ∧
        w'.calls = w.calls + ({E | aaf.framework.Stable E}.ncard +
          if ∀ i, aaf.parents i = [] then 0 else 1)) w := by
  have hg := computeGrounded_represents aaf
  have hpos := numberVars_pos n
  have hnil : ∀ τ : Assignment, aaf.framework.Stable (selected τ (numberVars n 1).1) →
      ((negatives τ.model (numberVars n 1).1).map (numberVars n 1).1 = [] ↔
        ∀ i, aaf.parents i = []) := by
    intro τ hτ
    rw [← stable_univ_iff, List.map_eq_nil_iff, List.eq_nil_iff_forall_not_mem]
    have hall : (∀ i, i ∉ negatives τ.model (numberVars n 1).1) ↔
        selected τ (numberVars n 1).1 = Set.univ := by
      rw [Set.eq_univ_iff_forall]
      apply forall_congr'
      intro i
      rw [mem_negatives hpos, not_not]
    rw [hall]
    constructor
    · exact fun h => h ▸ hτ
    · exact fun h => hτ.eq_of_subset h (Set.subset_univ _)
  rw [solveCest]
  dsimp only
  rw [cestRound_eq]
  apply Prog.Total.bind
  apply (total_countLoop ω (blocks_readNegatives hpos) hnil (fun h => ⟨_, stable_univ_iff.2 h⟩)
    (addStbTestClauses_describes hpos (numberVars_injective n) hg) w).mono
  rintro count w' ⟨rfl, hw', hcalls⟩
  apply Prog.total_atomic.2
  exact ⟨PrintsCount.of_ofNat (by rw [← hw']), hcalls⟩

/-- CE-ST terminates. It prints the number of stable extensions exactly if the counter can hold
it. -/
theorem solveCest_counts_iff (ω : TotalOracle) (aaf : AAF n) (w : World) :
    Prog.Total (solveCest ω.answer aaf (computeGrounded aaf).1) (fun _ w' => w'.stdout =
      w.stdout ++ (toString {E | aaf.framework.Stable E}.ncard ++ "\n") ↔
        {E | aaf.framework.Stable E}.ncard ≤ intMax) w :=
  (total_solveCest ω aaf w).mono fun _ _ h => h.1.eq_iff

/-- The stable extensions of 31 pairs of rivals are not counted. -/
theorem solveCest_rivals :
    ¬ Prog.Total (solveCest exhaustive.answer (rivals 31) (computeGrounded (rivals 31)).1)
      (fun _ w' => w'.stdout =
        "" ++ (toString {E | (rivals 31).framework.Stable E}.ncard ++ "\n")) ⟨0, "", true⟩ :=
  PrintsCount.not_total ((total_solveCest exhaustive (rivals 31) _).mono fun _ _ h => h.1)
    intMax_lt_ncard_stable

end Correctness

end TaasFudge
