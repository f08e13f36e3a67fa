import TaasFudge.Taas.Grounded
import TaasFudge.Tasks.Direct
import TaasFudge.Tasks.SePr
import TaasFudge.Util.CInt

/-! # CE-PR

Every model blocks its IN set and all its subsets for good. While one preferred
extension is approached, the set held is assumed; when it can no longer grow, the
sets blocked on the way lie inside it, and those blocked before inside the
extensions already counted.
-/

namespace TaasFudge

open Dimacs

variable {n : ℕ}

section Blocked
variable {aaf : AAF n} {C B : Set (Set (Fin n))} {A O : Set (Fin n)}

/-- The labellings looked for: not empty, and not inside a blocked set. -/
structure Remaining (aaf : AAF n) (B : Set (Set (Fin n))) (b : Set (Fin n) × Set (Fin n)) :
    Prop where
  labelling : aaf.framework.AdmissibleLabelling b.1 b.2
  nonempty : b.1.Nonempty
  free : ∀ S ∈ B, ¬ b.1 ⊆ S

/-- The counted extensions `C` are blocked, and every blocked set lies inside one of them or
inside the current set `A`. -/
structure Blocking (aaf : AAF n) (C B : Set (Set (Fin n))) (A : Set (Fin n)) : Prop where
  preferred : ∀ P ∈ C, aaf.framework.Preferred P
  counted : C ⊆ B
  inside : ∀ S ∈ B, (∃ P ∈ C, S ⊆ P) ∨ S ⊆ A

theorem Remaining.insert_iff {b : Set (Fin n) × Set (Fin n)} :
    Remaining aaf (insert A B) b ↔ Remaining aaf B b ∧ ¬ b.1 ⊆ A := by
  constructor
  · intro h
    exact ⟨⟨h.labelling, h.nonempty, fun S hS => h.free S (.inr hS)⟩, h.free A (.inl rfl)⟩
  · rintro ⟨h, hA⟩
    refine ⟨h.labelling, h.nonempty, ?_⟩
    rintro S (rfl | hS)
    · exact hA
    · exact h.free S hS

/-- A set that cannot grow, and is not inside a counted extension, is preferred. -/
theorem Blocking.preferred_of_stuck (h : Blocking aaf C B A)
    (hA : aaf.framework.AdmissibleLabelling A O) (hne : A.Nonempty) (hnew : ∀ P ∈ C, ¬ A ⊆ P)
    (hno : ∀ b, Remaining aaf B b → ¬ A ⊆ b.1) : aaf.framework.Preferred A := by
  obtain ⟨P, hAP, hP⟩ := hA.admissible.exists_preferred
  have hblocked : ∃ S ∈ B, P ⊆ S := by
    by_contra hfree
    push Not at hfree
    exact hno (P, _) ⟨hP.prop.labelling hP.grounded_subset, hne.mono hAP, hfree⟩ hAP
  obtain ⟨S, hS, hPS⟩ := hblocked
  obtain ⟨P', hP', hSP'⟩ | hSA := h.inside S hS
  · exact absurd (hAP.trans (hPS.trans hSP')) (hnew P' hP')
  · rwa [(hPS.trans hSA).antisymm hAP] at hP

/-- When nothing is left to find all non-empty preferred extensions have been counted. -/
theorem Blocking.mem_of_exhausted (h : Blocking aaf C B ∅) (hno : ∀ b, ¬ Remaining aaf B b)
    {P : Set (Fin n)} (hP : aaf.framework.Preferred P) (hne : P.Nonempty) : P ∈ C := by
  have hblocked : ∃ S ∈ B, P ⊆ S := by
    by_contra hfree
    push Not at hfree
    exact hno (P, _) ⟨hP.prop.labelling hP.grounded_subset, hne, hfree⟩
  obtain ⟨S, hS, hPS⟩ := hblocked
  obtain ⟨P', hP', hSP'⟩ | hempty := h.inside S hS
  · rwa [hP.eq_of_subset (h.preferred P' hP').prop (hPS.trans hSP')]
  · exact absurd (hPS.trans hempty) hne.not_subset_empty

theorem Blocking.grow (h : Blocking aaf C B A) {S : Set (Fin n)} (hS : A ⊆ S) :
    Blocking aaf C (insert S B) S := by
  refine ⟨h.preferred, h.counted.trans (Set.subset_insert S B), ?_⟩
  rintro T (rfl | hT)
  · exact .inr subset_rfl
  · exact (h.inside T hT).imp_right fun hTA => hTA.trans hS

theorem Blocking.count (h : Blocking aaf C B A) (hA : aaf.framework.Preferred A) :
    Blocking aaf (insert A C) (insert A B) ∅ := by
  refine ⟨?_, Set.insert_subset_insert h.counted, ?_⟩
  · rintro P (rfl | hP)
    · exact hA
    · exact h.preferred P hP
  · rintro S (rfl | hS)
    · exact .inl ⟨_, .inl rfl, subset_rfl⟩
    · obtain ⟨P, hP, hSP⟩ | hSA := h.inside S hS
      · exact .inl ⟨P, .inr hP, hSP⟩
      · exact .inl ⟨A, .inl rfl, hSA⟩

end Blocked

section Grow
variable {aaf : AAF n} {inVars outVars : Fin n → ℤ} {C B : Set (Set (Fin n))} {st : CeprState n}

theorem ceprRead_of_sat {solver : IpasirSolver} (h : solver.state = .sat) (temp : RaSet n) :
    ceprRead inVars solver temp =
      pure ((positives solver.model inVars).foldl RaSet.add temp,
        (negatives solver.model inVars).map inVars) := by
  have hbody : ∀ (p : RaSet n × List ℤ) (i : Fin n), (do
      let pos ← satPos solver (inVars i)
      if pos then pure (p.1.add i, p.2)
      else
        let neg ← satNeg solver (inVars i)
        pure (if neg then (p.1, p.2 ++ [inVars i]) else p) : Prog World (RaSet n × List ℤ)) =
      pure (if decide (0 < solver.model.value (inVars i)) then (p.1.add i, p.2)
        else if decide (solver.model.value (inVars i) < 0) then (p.1, p.2 ++ [inVars i]) else p) := by
    intro p i
    rw [satPos_of_sat h, satNeg_of_sat h, pure_bind, pure_bind]
    split_ifs <;> rfl
  simp only [ceprRead, hbody, List.foldlM_pure]
  rw [foldl_sort, List.nil_append, positives, negatives]
  intro i hi
  have hneg := of_decide_eq_true hi
  rw [decide_eq_false_iff_not]
  omega

/-- A loop that adds elements to a set and assumes each of them. -/
theorem foldlM_assume {solver : IpasirSolver} (h : solver.openClause = []) (xs : List (Fin n))
    (s : RaSet n) : xs.foldlM (fun (p : RaSet n × IpasirSolver) i => do
      let solver ← satAssume p.2 (inVars i)
      pure (p.1.add i, solver)) (s, solver) =
      pure (xs.foldl RaSet.add s, solver.assumeAll (xs.map inVars)) := by
  induction xs generalizing s solver with
  | nil => rfl
  | cons x xs ih =>
    have hclosed : (solver.assume (inVars x)).openClause = [] := h
    rw [List.foldlM_cons, satAssume_of_closed h, pure_bind, pure_bind]
    exact ih hclosed (s.add x)

/-- The invariant of the inner loop. The current set is assumed; it is empty before the first
model, and then a blocked admissible set outside all counted extensions. -/
structure CeprInv (aaf : AAF n) (inVars outVars : Fin n → ℤ) (C B : Set (Set (Fin n)))
    (st : CeprState n) : Prop where
  blocking : Blocking aaf C B st.admSet.toSet
  assuming : ∃ (solver : IpasirSolver) (ls : List ℤ), st.solver = solver.assumeAll ls ∧
    solver.Describes (labels inVars outVars) (Remaining aaf B) ∧
    ∀ τ : Assignment, (∀ l ∈ ls, τ.lit l = true) ↔ st.admSet.toSet ⊆ selected τ inVars
  fresh : st.noFurther = true → st.admSet.toSet = ∅
  found : st.noFurther = false → (∃ O, aaf.framework.AdmissibleLabelling st.admSet.toSet O) ∧
    st.admSet.toSet.Nonempty ∧ st.admSet.toSet ∈ B ∧ ∀ P ∈ C, ¬ st.admSet.toSet ⊆ P

/-- The end of the inner loop: all extensions have been counted, or the current set is one that
has not. -/
structure CeprPost (aaf : AAF n) (inVars outVars : Fin n → ℤ) (C B : Set (Set (Fin n)))
    (st : CeprState n) : Prop where
  blocking : Blocking aaf C B st.admSet.toSet
  describes : st.solver.Describes (labels inVars outVars) (Remaining aaf B)
  all : st.noFurther = true → ∀ P, aaf.framework.Preferred P → P.Nonempty → P ∈ C
  new : st.noFurther = false → aaf.framework.Preferred st.admSet.toSet ∧
    st.admSet.toSet.Nonempty ∧ st.admSet.toSet ∉ C

theorem CeprInv.finish (h : CeprInv aaf inVars outVars C B st) {solver : IpasirSolver}
    (hdesc : solver.Describes (labels inVars outVars) (Remaining aaf B))
    (hno : ∀ b, Remaining aaf B b → ¬ st.admSet.toSet ⊆ b.1) :
    CeprPost aaf inVars outVars C B { st with temp := st.temp.reset, solver := solver } := by
  refine ⟨h.blocking, hdesc, fun hfresh => ?_, fun hfound => ?_⟩
  · have hempty := h.fresh hfresh
    intro P hP hne
    have hblocking := h.blocking
    rw [hempty] at hblocking hno
    exact hblocking.mem_of_exhausted (fun b hb => hno b hb (Set.empty_subset _)) hP hne
  · obtain ⟨⟨O, hO⟩, hne, -, hnew⟩ := h.found hfound
    exact ⟨h.blocking.preferred_of_stuck hO hne hnew hno, hne, fun hC => hnew _ hC subset_rfl⟩

def CeprState.next (inVars : Fin n → ℤ) (m : PartialModel) (solver : IpasirSolver)
    (st : CeprState n) : CeprState n :=
  let temp := (positives m inVars).foldl RaSet.add st.temp.reset
  ⟨((solver.satisfied m).push ((negatives m inVars).map inVars)).assumeAll
      (temp.elementsArr.map inVars),
    temp.elementsArr.foldl RaSet.add st.admSet, temp, false⟩

theorem CeprInv.next (h : CeprInv aaf inVars outVars C B st) (hv : LabelVars inVars outVars)
    {solver : IpasirSolver}
    (hdesc : solver.Describes (labels inVars outVars) (Remaining aaf B)) {τ : Assignment}
    (hτ : Remaining aaf B (labels inVars outVars τ))
    (habove : st.admSet.toSet ⊆ selected τ inVars) :
    CeprInv aaf inVars outVars C (insert (selected τ inVars) B)
      (st.next inVars τ.model solver) ∧
    st.admSet.toSet ⊂ (st.next inVars τ.model solver).admSet.toSet := by
  have htemp : ∀ i, i ∈ (positives τ.model inVars).foldl RaSet.add st.temp.reset ↔
      i ∈ selected τ inVars := by
    intro i
    rw [RaSet.mem_foldl_add, mem_positives hv.in_pos]
    simp
  have hset : (st.next inVars τ.model solver).admSet.toSet = selected τ inVars := by
    ext i
    rw [CeprState.next, RaSet.mem_toSet, RaSet.mem_foldl_add, ← RaSet.mem_def, htemp]
    exact or_iff_right_of_imp fun hi => habove hi
  have hstrict : ¬ selected τ inVars ⊆ st.admSet.toSet := by
    cases hf : st.noFurther with
    | true =>
      rw [h.fresh hf]
      exact hτ.nonempty.not_subset_empty
    | false => exact hτ.free _ (h.found hf).2.2.1
  refine ⟨⟨?_, ⟨_, _, rfl, ?_, ?_⟩, nofun, fun _ => ?_⟩, ?_⟩
  · rw [hset]
    exact h.blocking.grow habove
  · refine ((hdesc.satisfied τ.model).push (P := fun b => ¬ b.1 ⊆ selected τ inVars)
      fun υ => satisfies_negatives hv.in_pos).congr fun b => ?_
    exact Remaining.insert_iff.symm
  · intro υ
    rw [hset, List.forall_mem_map]
    exact forall_congr' fun i => imp_congr_left (htemp i)
  · rw [hset]
    exact ⟨⟨_, hτ.labelling⟩, hτ.nonempty, .inl rfl,
      fun P hP => hτ.free P (h.blocking.counted hP)⟩
  · rw [hset]
    exact ⟨habove, hstrict⟩

theorem total_ceprGrow (ω : TotalOracle) (hv : LabelVars inVars outVars) {w₀ w : World}
    (h : CeprInv aaf inVars outVars C B st) (hw : w.stdout = w₀.stdout) :
    Prog.Total (ceprGrow ω.answer inVars st) (LoopStep.post
      (fun st' w' => ((∃ B', CeprInv aaf inVars outVars C B' st') ∧ w'.stdout = w₀.stdout) ∧
        n - st'.admSet.numberOfElements < n - st.admSet.numberOfElements)
      fun st' w' => (∃ B', CeprPost aaf inVars outVars C B' st') ∧ w'.stdout = w₀.stdout) w := by
  obtain ⟨solver, ls, hsolver, hdesc, hls⟩ := h.assuming
  rw [ceprGrow]
  dsimp only
  rw [hsolver]
  apply Prog.Total.bind
  apply hdesc.total_satSolve ω ls (A := fun b => st.admSet.toSet ⊆ b.1) hls
  · intro τ w' hτ habove hw'
    dsimp only
    rw [if_neg (by decide), ceprRead_of_sat rfl, pure_bind]
    dsimp only
    rw [satAddClause_eq fun l => ne_zero_of_mem_map hv.in_ne, List.take_length,
      foldlM_assume (by rfl), pure_bind, Prog.total_pure]
    obtain ⟨hinv, hlt⟩ := h.next hv hdesc hτ habove
    exact ⟨⟨⟨_, hinv⟩, hw'.trans hw⟩, RaSet.room_lt hlt⟩
  · intro w' hno hw'
    dsimp only
    rw [if_pos rfl, Prog.total_pure]
    exact ⟨⟨B, h.finish hdesc.refuted hno⟩, hw'.trans hw⟩

end Grow

section Rivals
variable {m : ℕ}

theorem rival_lt {i : ℕ} (h : i < 2 * m) : (if i % 2 = 0 then i + 1 else i - 1) < 2 * m := by
  split_ifs <;> omega

def rival (i : Fin (2 * m)) : Fin (2 * m) :=
  ⟨if (i : ℕ) % 2 = 0 then i + 1 else i - 1, rival_lt i.isLt⟩

theorem rival_rival (i : Fin (2 * m)) : rival (rival i) = i := by
  ext
  simp only [rival]
  split_ifs <;> omega

def rivals (m : ℕ) : AAF (2 * m) where
  ids2arguments := argNumber
  numberOfAttacks := 2 * m
  children i := [rival i]
  parents i := [rival i]
  numberOfAttackers _ := 1
  initial := (BitSet.init (fun _ => 0#32) (2 * m)).unsetAll
  converse i j := by
    by_cases hij : rival i = j
    · rw [← hij, rival_rival, List.count_singleton_self, List.count_singleton_self]
    · have hji : rival j ≠ i := fun h => hij (by rw [← h, rival_rival])
      simp [hij, hji]
  attackers_eq _ := rfl
  attacks_eq := by simp
  initial_length := rfl
  initial_iff j := by
    have hget : (BitSet.init (fun _ => 0#32) (2 * m)).unsetAll.get j = false :=
      BitSet.get_unsetAll _ (Nat.le_of_lt j.isLt)
    simp [hget]

theorem half_lt {i : ℕ} (h : i < 2 * m) : i / 2 < m := by omega

/-- One argument of each pair, the first one where `f` says so. -/
def chosen (f : Fin m → Bool) : Set (Fin (2 * m)) :=
  {i | f ⟨i / 2, half_lt i.isLt⟩ = decide ((i : ℕ) % 2 = 0)}

theorem rival_mem_chosen (f : Fin m → Bool) (i : Fin (2 * m)) :
    rival i ∈ chosen f ↔ i ∉ chosen f := by
  have hhalf : (rival i : ℕ) / 2 = i / 2 := by
    simp only [rival]
    split_ifs <;> omega
  have hparity : (rival i : ℕ) % 2 = 0 ↔ ¬ (i : ℕ) % 2 = 0 := by
    simp only [rival]
    split_ifs <;> omega
  simp only [chosen, Set.mem_ofPred_eq, hhalf, hparity, decide_not]
  cases f ⟨i / 2, half_lt i.isLt⟩ <;> cases decide ((i : ℕ) % 2 = 0) <;> simp

theorem stable_chosen (f : Fin m → Bool) : (rivals m).framework.Stable (chosen f) := by
  constructor
  · intro i hi j hj hij
    obtain rfl := List.mem_singleton.1 hij
    exact (rival_mem_chosen f j).1 hi hj
  · intro i hi
    exact ⟨rival i, (rival_mem_chosen f i).2 hi, List.mem_singleton_self _⟩

theorem chosen_injective : Function.Injective (chosen (m := m)) := by
  intro f g h
  funext k
  have hk : 2 * (k : ℕ) < 2 * m := by omega
  have hmem : ∀ f : Fin m → Bool, ⟨2 * k, hk⟩ ∈ chosen f ↔ f k = true := by
    intro f
    have hhalf : 2 * (k : ℕ) / 2 = k := by omega
    simp [chosen, hhalf]
  have hiff := (hmem f).symm.trans (h ▸ hmem g)
  exact Bool.eq_iff_iff.2 hiff

theorem two_pow_le_ncard_stable : 2 ^ m ≤ {S | (rivals m).framework.Stable S}.ncard := by
  have hcard : (Set.range (chosen (m := m))).ncard = 2 ^ m := by
    rw [← Set.image_univ, Set.ncard_image_of_injective _ chosen_injective, Set.ncard_univ]
    simp
  rw [← hcard]
  apply Set.ncard_le_ncard _ (Set.toFinite _)
  rintro _ ⟨f, rfl⟩
  exact stable_chosen f
theorem intMax_lt_ncard_stable : intMax < {S | (rivals 31).framework.Stable S}.ncard :=
  lt_of_lt_of_le (by decide) two_pow_le_ncard_stable

theorem intMax_lt_ncard_of_stable {P : Set (Fin (2 * 31)) → Prop}
    (h : ∀ S, (rivals 31).framework.Stable S → P S) : intMax < {S | P S}.ncard :=
  intMax_lt_ncard_stable.trans_le (Set.ncard_le_ncard h (Set.toFinite _))

end Rivals

section Count
variable {aaf : AAF n} {grounded : Labeling} {inVars outVars : Fin n → ℤ}
  {C B : Set (Set (Fin n))} {st : CeprState n}

/-- The invariant of the outer loop: as many extensions have been counted as the counter says,
none of them empty. -/
structure CountInv (aaf : AAF n) (inVars outVars : Fin n → ℤ) (C B : Set (Set (Fin n)))
    (p : CeprState n × Int32) : Prop where
  blocking : Blocking aaf C B ∅
  describes : p.1.solver.Describes (labels inVars outVars) (Remaining aaf B)
  nonempty : ∀ P ∈ C, P.Nonempty
  count : p.2 = Int32.ofNat C.ncard

/-- At the end exactly the non-empty preferred extensions have been counted. -/
def Counted (aaf : AAF n) (count : Int32) : Prop :=
  count = Int32.ofNat {P | aaf.framework.Preferred P ∧ P.Nonempty}.ncard

noncomputable def uncounted (aaf : AAF n) (C : Set (Set (Fin n))) : ℕ :=
  ({P | aaf.framework.Preferred P} \ C).ncard

theorem uncounted_empty (aaf : AAF n) :
    uncounted aaf ∅ = {P | aaf.framework.Preferred P}.ncard := by
  rw [uncounted, Set.sdiff_empty]

theorem uncounted_insert_lt {P : Set (Fin n)} (hP : aaf.framework.Preferred P) (hnew : P ∉ C) :
    uncounted aaf (insert P C) < uncounted aaf C := by
  apply Set.ncard_lt_ncard _ (Set.toFinite _)
  refine (Set.ssubset_iff_of_subset ?_).2 ⟨P, ⟨hP, hnew⟩, fun h => h.2 (.inl rfl)⟩
  exact Set.sdiff_subset_sdiff_right (Set.subset_insert P C)

theorem CountInv.next {p : CeprState n × Int32} (h : CountInv aaf inVars outVars C B p)
    {B' : Set (Set (Fin n))} (hpost : CeprPost aaf inVars outVars C B' st)
    (hf : st.noFurther = false) :
    CountInv aaf inVars outVars (insert st.admSet.toSet C) (insert st.admSet.toSet B')
      ({ st with solver := st.solver.push (((List.finRange n).filter fun i : Fin n =>
        !st.admSet.contains i).map inVars) }, p.2 + 1) := by
  obtain ⟨hpref, hne, hnew⟩ := hpost.new hf
  refine ⟨hpost.blocking.count hpref, ?_, ?_, ?_⟩
  · refine (hpost.describes.push (P := fun b => ¬ b.1 ⊆ st.admSet.toSet)
      fun τ => satisfies_outside st.admSet).congr fun b => ?_
    exact Remaining.insert_iff.symm
  · rintro P (rfl | hP)
    · exact hne
    · exact h.nonempty P hP
  · rw [Set.ncard_insert_of_notMem hnew (Set.toFinite C), Int32.ofNat_add, h.count]
    rfl

theorem CountInv.start {solver : IpasirSolver}
    (hdesc : solver.Describes (labels inVars outVars) fun b =>
      aaf.framework.AdmissibleLabelling b.1 b.2) {admSet temp : RaSet n} {noFurther : Bool} :
    CountInv aaf inVars outVars ∅ ∅
      (⟨solver.push ((List.finRange n).map inVars), admSet, temp, noFurther⟩, 0) := by
  refine ⟨⟨nofun, subset_rfl, nofun⟩, ?_, nofun, by rw [Set.ncard_empty]; rfl⟩
  refine (hdesc.push (P := fun b => b.1.Nonempty) fun τ => ?_).congr fun b => ?_
  · rw [Assignment.satisfies_map]
    simp [Set.Nonempty]
  · exact ⟨fun hb => ⟨hb.1, hb.2, nofun⟩, fun hb => ⟨hb.labelling, hb.nonempty⟩⟩

/-- A loop that collects the variables of the selected arguments. -/
theorem foldl_collect (p : Fin n → Bool) (v : Fin n → ℤ) (xs : List (Fin n)) (c : List ℤ) :
    xs.foldl (fun (clause : List ℤ) i => if p i then clause ++ [v i] else clause) c =
      c ++ (xs.filter p).map v := by
  induction xs generalizing c with
  | nil => simp
  | cons x xs ih =>
    rw [List.foldl_cons, ih, List.filter_cons]
    split_ifs <;> simp

theorem total_ceprRound (ω : TotalOracle) (hv : LabelVars inVars outVars) {w₀ w : World}
    {p : CeprState n × Int32} (h : CountInv aaf inVars outVars C B p)
    (hw : w.stdout = w₀.stdout) :
    Prog.Total (ceprRound ω.answer inVars p) (LoopStep.post
      (fun p' w' => ∃ C', ((∃ B', CountInv aaf inVars outVars C' B' p') ∧
        w'.stdout = w₀.stdout) ∧ uncounted aaf C' < uncounted aaf C)
      fun count w' => Counted aaf count ∧ w'.stdout = w₀.stdout) w := by
  have hempty : p.1.admSet.reset.toSet = ∅ := by ext i; simp
  apply Prog.Total.bind
  apply (Prog.Total.loop
    (fun st w' => (∃ B', CeprInv aaf inVars outVars C B' st) ∧ w'.stdout = w₀.stdout)
    (fun st => n - st.admSet.numberOfElements)
    (Q := fun st w' => (∃ B', CeprPost aaf inVars outVars C B' st) ∧ w'.stdout = w₀.stdout)
    (fun st w' ⟨⟨B', hst⟩, hw'⟩ => total_ceprGrow ω hv hst hw') ⟨⟨B, ?_⟩, hw⟩).mono
  · rintro st w' ⟨⟨B', hpost⟩, hw'⟩
    by_cases hf : st.noFurther = true
    · rw [if_pos hf, Prog.total_pure]
      refine ⟨?_, hw'⟩
      rw [Counted, h.count]
      congr 2
      ext P
      constructor
      · exact fun hP => ⟨h.blocking.preferred P hP, h.nonempty P hP⟩
      · rintro ⟨hP, hne⟩
        exact hpost.all hf P hP hne
    · rw [if_neg hf, Prog.total_pure]
      rw [foldl_collect (fun i : Fin n => !st.admSet.contains i), List.nil_append,
        satAddClause_eq fun l => ne_zero_of_mem_map hv.in_ne, List.take_length]
      rw [Bool.not_eq_true] at hf
      obtain ⟨hpref, -, hnew⟩ := hpost.new hf
      exact ⟨_, ⟨⟨_, h.next hpost hf⟩, hw'⟩, uncounted_insert_lt hpref hnew⟩
  · refine ⟨?_, ⟨p.1.solver, [], rfl, h.describes, ?_⟩, fun _ => hempty, nofun⟩
    · dsimp only
      rw [hempty]
      exact h.blocking
    · intro τ
      simp [hempty]

/-- The empty set is preferred only when it is the only preferred extension. -/
theorem ncard_preferred (aaf : AAF n) : {P | aaf.framework.Preferred P}.ncard =
    if {P | aaf.framework.Preferred P ∧ P.Nonempty}.ncard = 0 then 1
    else {P | aaf.framework.Preferred P ∧ P.Nonempty}.ncard := by
  split_ifs with hzero
  · rw [Set.ncard_eq_zero (Set.toFinite _)] at hzero
    have hempty : ∀ P, aaf.framework.Preferred P → P = ∅ := by
      intro P hP
      by_contra hne
      exact Set.eq_empty_iff_forall_notMem.1 hzero P ⟨hP, Set.nonempty_iff_ne_empty.2 hne⟩
    obtain ⟨P, hP⟩ := Framework.exists_preferred (F := aaf.framework)
    rw [Set.ncard_eq_one]
    refine ⟨∅, Set.ext fun S => ⟨hempty S, ?_⟩⟩
    rintro rfl
    exact hempty P hP ▸ hP
  · obtain ⟨P, hP, a, ha⟩ := Set.nonempty_of_ncard_ne_zero hzero
    congr 1
    ext S
    constructor
    · intro hS
      refine ⟨hS, Set.nonempty_iff_ne_empty.2 ?_⟩
      rintro rfl
      have hPempty := (show aaf.framework.Preferred ∅ from hS).eq_of_subset hP.prop
        (Set.empty_subset P)
      exact (hPempty ▸ ha : a ∈ (∅ : Set (Fin n)))
    · exact fun hS => hS.1

/-- An `int` is printed. It is the number of the sets in question if that is one at all. -/
def PrintsCount (P : Set (Fin n) → Prop) (w w' : World) : Prop :=
  ∃ count : Int32, w'.stdout = w.stdout ++ (toString count ++ "\n") ∧
    (count.toInt = {S | P S}.ncard ↔ {S | P S}.ncard ≤ intMax)

theorem PrintsCount.of_ofNat {P : Set (Fin n) → Prop} {w w' : World}
    (h : w'.stdout = w.stdout ++ (toString (Int32.ofNat {S | P S}.ncard) ++ "\n")) :
    PrintsCount P w w' := ⟨_, h, Int32.toInt_ofNat_eq_iff⟩

theorem PrintsCount.eq_iff {P : Set (Fin n) → Prop} {w w' : World} (h : PrintsCount P w w') :
    w'.stdout = w.stdout ++ (toString {S | P S}.ncard ++ "\n") ↔ {S | P S}.ncard ≤ intMax := by
  obtain ⟨count, hw', hcount⟩ := h
  rw [hw', String.append_right_inj, String.append_left_inj, ← hcount]
  exact Int.toString_eq_natCast_iff

/-- More sets than an `int` can count are not counted. -/
theorem PrintsCount.not_total {P : Set (Fin n) → Prop} {w : World} {p : Prog World Unit}
    (h : Prog.Total p (fun _ w' => PrintsCount P w w') w) (hlarge : intMax < {S | P S}.ncard) :
    ¬ Prog.Total p (fun _ w' =>
      w'.stdout = w.stdout ++ (toString {S | P S}.ncard ++ "\n")) w := by
  rintro ⟨a, w', hr, hw'⟩
  have hle := (h.of_returns hr).eq_iff.1 hw'
  omega

/-- Zero stands for the empty extension, and a counter that has gone round is wrong in any case. -/
theorem Counted.toInt_eq_iff {count : Int32} (h : Counted aaf count) :
    (if count = 0 then 1 else count).toInt = {P | aaf.framework.Preferred P}.ncard ↔
      {P | aaf.framework.Preferred P}.ncard ≤ intMax := by
  rw [Counted] at h
  rw [ncard_preferred]
  split_ifs with hcount hzero hzero
  · exact iff_of_true rfl (by decide)
  · -- the counter is zero although there is something to count
    have hlarge : ¬ {P | aaf.framework.Preferred P ∧ P.Nonempty}.ncard ≤ intMax := by
      intro hle
      have hvalue := Int32.toInt_ofNat_of_le hle
      rw [← h, hcount, Int32.toInt_zero] at hvalue
      omega
    refine iff_of_false (fun hone => hlarge ?_) hlarge
    have hle := Int32.toInt_le_intMax 1
    omega
  · rw [hzero] at h
    exact absurd h hcount
  · rw [h]
    exact Int32.toInt_ofNat_eq_iff

theorem total_solveCepr (ω : TotalOracle) (hg : Grounds aaf grounded) (w : World) :
    Prog.Total (solveCepr ω.answer aaf grounded)
      (fun _ w' => PrintsCount aaf.framework.Preferred w w') w := by
  have hv := labelVars_numberPairs n Int.one_pos
  have hdesc := (addAdmTestClauses_encodes hv hg).describes hv
  rw [solveCepr]
  dsimp only
  rw [← List.foldl_map, satAdd_zero_foldl fun l => ne_zero_of_mem_map hv.in_ne]
  apply Prog.Total.bind
  apply (Prog.Total.loop_indexed
    (fun C p w' => (∃ B, CountInv aaf (numberPairs n 1).1 (numberPairs n 1).2.1 C B p) ∧
      w'.stdout = w.stdout) (uncounted aaf)
    (Q := fun count w' => Counted aaf count ∧ w'.stdout = w.stdout)
    (fun C p w' ⟨⟨B, h⟩, hw'⟩ => total_ceprRound ω hv h hw') (i := ∅) ⟨⟨∅, ?_⟩, rfl⟩).mono
  · rintro count w' ⟨hcount, hw'⟩
    apply Prog.total_atomic.2
    exact ⟨_, by rw [← hw'], hcount.toInt_eq_iff⟩
  · exact CountInv.start hdesc

/-- CE-PR terminates. It prints the number of preferred extensions, which is one when the empty set
is the only admissible set, exactly if the counter can hold it. -/
theorem solveCepr_counts_iff (ω : TotalOracle) (aaf : AAF n) (w : World) :
    Prog.Total (solveCepr ω.answer aaf (computeGrounded aaf).1) (fun _ w' => w'.stdout =
      w.stdout ++ (toString {P | aaf.framework.Preferred P}.ncard ++ "\n") ↔
        {P | aaf.framework.Preferred P}.ncard ≤ intMax) w ∧
    ((∀ S, aaf.framework.Admissible S → S = ∅) → {P | aaf.framework.Preferred P}.ncard = 1) := by
  constructor
  · exact (total_solveCepr ω (computeGrounded_represents aaf) w).mono fun _ _ h => h.eq_iff
  · intro hempty
    have hnone : {P | aaf.framework.Preferred P ∧ P.Nonempty}.ncard = 0 := by
      rw [Set.ncard_eq_zero (Set.toFinite _)]
      refine Set.eq_empty_of_forall_notMem fun P hP => ?_
      exact hP.2.ne_empty (hempty P hP.1.prop)
    rw [ncard_preferred, if_pos hnone]

/-- The preferred extensions of 31 pairs of rivals are not counted. -/
theorem solveCepr_rivals :
    ¬ Prog.Total (solveCepr exhaustive.answer (rivals 31) (computeGrounded (rivals 31)).1)
      (fun _ w' => w'.stdout =
        "" ++ (toString {P | (rivals 31).framework.Preferred P}.ncard ++ "\n")) ⟨0, "", true⟩ :=
  PrintsCount.not_total (total_solveCepr exhaustive (computeGrounded_represents (rivals 31)) _)
    (intMax_lt_ncard_of_stable fun _ h => h.preferred)

end Count

end TaasFudge
