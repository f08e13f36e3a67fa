import TaasFudge.Tasks.AttackTest
import TaasFudge.Tasks.ClauseArrays
import TaasFudge.Tasks.Exact
import TaasFudge.Util.CInt

/-! # The attack encoding

DS-PR and EA-PR number four variables for each argument and one for each attack. The variables are
values of type `int`; as long as there are enough of them the clauses are those over the integers,
and otherwise some variable is used twice or is no variable.
-/

namespace TaasFudge

open Dimacs

variable {n : ℕ}

/-- `for (i...) { in_vars[i] = idx++; out_vars[i] = idx++; }` -/
def numberPairsInt (n : ℕ) (idx : Int32) : (Fin n → Int32) × (Fin n → Int32) × Int32 :=
  (List.finRange n).foldl (fun st i =>
    (Function.update st.1 i st.2.2, Function.update st.2.1 i (st.2.2 + 1), st.2.2 + 2))
    (fun _ => 0, fun _ => 0, idx)

/-- `add_attackClauses` with its array, which has room for `number_of_attacks` ints. -/
def addAttackArrays (solver : IpasirSolver) (inVars : Fin n → Int32) (aaf : AAF n)
    (inAttackedVars : Fin n → Int32) (attackIdxOffset : Int32) : IpasirSolver × ClauseArray :=
  let st := (List.finRange n).foldl (fun st (i : Fin n) =>
    (aaf.parents i).foldl (fun (st : IpasirSolver × ClauseArray × Int32) j =>
      let idx := st.2.2
      let solver := satAddClause2 st.1 (-idx).toInt (inVars j).toInt
      let solver := satAddClause2 solver (-idx).toInt (inAttackedVars i).toInt
      let solver := satAddClause3 solver idx.toInt (-inAttackedVars i).toInt (-inVars j).toInt
      (solver, st.2.1.write idx.toInt, idx + 1)) st)
    (solver, ClauseArray.malloc aaf.numberOfAttacks, attackIdxOffset)
  (satAddClause st.1 st.2.1.cells aaf.numberOfAttacks, st.2.1)

def attackerVars (n : ℕ) : (Fin n → Int32) × (Fin n → Int32) × Int32 := numberPairsInt n 1

def attackedVars (n : ℕ) : (Fin n → Int32) × (Fin n → Int32) × Int32 :=
  numberPairsInt n (attackerVars n).2.2

/-- The clauses of `solver_attAdmTest` before the first search, and the array of attack variables. -/
def attAdmTestInt (aaf : AAF n) (grounded : Labeling) : IpasirSolver × ClauseArray :=
  let solver := (addAdmTestClauses satInit (fun i => ((attackerVars n).1 i).toInt)
    (fun i => ((attackerVars n).2.1 i).toInt) aaf grounded).2
  let solver := (addAdmTestClauses solver (fun i => ((attackedVars n).1 i).toInt)
    (fun i => ((attackedVars n).2.1 i).toInt) aaf grounded).2
  addAttackArrays solver (attackerVars n).1 aaf (attackedVars n).1 (4 * Int32.ofNat n + 1)

/-- All variables: IN and OUT of the attacking and of the attacked set, and the attacks. -/
def attackTestVar (aaf : AAF n) :
    ((Fin n ⊕ Fin n) ⊕ (Fin n ⊕ Fin n)) ⊕ Fin aaf.numberOfAttacks → Int32 :=
  Sum.elim (Sum.elim (Sum.elim (attackerVars n).1 (attackerVars n).2.1)
    (Sum.elim (attackedVars n).1 (attackedVars n).2.1))
    fun k => 4 * Int32.ofNat n + 1 + Int32.ofNat k

/-- All variables differ, the array of attack variables is filled exactly, and the clauses can be
satisfied with the IN sets `S` and `T` iff these are admissible supersets of the grounded extension
and `S` attacks `T`; without attacks not at all. -/
structure AttackEncodingExact (aaf : AAF n) (grounded : Labeling) : Prop where
  numbers : ∀ i : Fin n, ((attackerVars n).1 i).toInt = 2 * i + 1 ∧
    ((attackerVars n).2.1 i).toInt = 2 * i + 2 ∧
    ((attackedVars n).1 i).toInt = 2 * n + 2 * i + 1 ∧
    ((attackedVars n).2.1 i).toInt = 2 * n + 2 * i + 2
  positive : ∀ x, 0 < (attackTestVar aaf x).toInt
  fresh : Function.Injective (attackTestVar aaf)
  filled : (attAdmTestInt aaf grounded).2 = ⟨aaf.numberOfAttacks,
    List.ofFn fun k => (attackTestVar aaf (.inr k)).toInt, true⟩
  satisfiable : ∀ S T, (∃ τ, (attAdmTestInt aaf grounded).1.Holds τ ∧
      selected τ (fun i => ((attackerVars n).1 i).toInt) = S ∧
      selected τ (fun i => ((attackedVars n).1 i).toInt) = T) ↔
    (aaf.framework.Admissible S ∧ aaf.framework.grounded ⊆ S) ∧
    (aaf.framework.Admissible T ∧ aaf.framework.grounded ⊆ T) ∧
    ∃ a ∈ S, ∃ b ∈ T, aaf.framework.attacks a b
  unsatisfiable : aaf.numberOfAttacks = 0 → ∀ τ, ¬ (attAdmTestInt aaf grounded).1.Holds τ

theorem numberPairsInt_ofNat (n k : ℕ) : numberPairsInt n (Int32.ofNat k) =
    (fun i : Fin n => Int32.ofNat (k + 2 * i), fun i : Fin n => Int32.ofNat (k + 2 * i + 1),
      Int32.ofNat (k + 2 * n)) := by
  have h := foldl_finRange_induction (n := n) (fun st i =>
    ((Function.update st.1 i st.2.2, Function.update st.2.1 i (st.2.2 + 1), st.2.2 + 2) :
      (Fin n → Int32) × (Fin n → Int32) × Int32))
    (fun m st => (∀ i : Fin n, (i : ℕ) < m → st.1 i = Int32.ofNat (k + 2 * i)) ∧
      (∀ i : Fin n, (i : ℕ) < m → st.2.1 i = Int32.ofNat (k + 2 * i + 1)) ∧
      st.2.2 = Int32.ofNat (k + 2 * m))
    (b := (fun _ => 0, fun _ => 0, Int32.ofNat k))
    ⟨fun i hi => absurd hi (by omega), fun i hi => absurd hi (by omega), rfl⟩ (by
      rintro i ⟨f, g, j⟩ ⟨hin, hout, hidx⟩
      dsimp only at hin hout hidx ⊢
      refine ⟨update_eq_of_lt_succ hin hidx, update_eq_of_lt_succ hout ?_, ?_⟩
      · rw [hidx]
        exact (Int32.ofNat_add _ 1).symm
      · rw [hidx, Nat.mul_succ, ← Nat.add_assoc]
        exact (Int32.ofNat_add _ 2).symm)
  exact Prod.ext (funext fun i => h.1 i i.isLt)
    (Prod.ext (funext fun i => h.2.1 i i.isLt) h.2.2)

theorem attackerVars_eq (n : ℕ) : attackerVars n =
    (fun i : Fin n => Int32.ofNat (1 + 2 * i), fun i : Fin n => Int32.ofNat (1 + 2 * i + 1),
      Int32.ofNat (1 + 2 * n)) := numberPairsInt_ofNat n 1

theorem attackedVars_eq (n : ℕ) : attackedVars n =
    (fun i : Fin n => Int32.ofNat (1 + 2 * n + 2 * i),
      fun i : Fin n => Int32.ofNat (1 + 2 * n + 2 * i + 1), Int32.ofNat (1 + 2 * n + 2 * n)) := by
  rw [attackedVars, attackerVars_eq]
  exact numberPairsInt_ofNat n (1 + 2 * n)

theorem offset_eq (n : ℕ) : 4 * Int32.ofNat n + 1 = Int32.ofNat (4 * n + 1) := by
  rw [Int32.ofNat_add, Int32.ofNat_mul]
  rfl

/-- Different positive variables are not more than there are positive values of `int`. -/
theorem card_le_intMax {α : Type} [Fintype α] {f : α → Int32} (hpos : ∀ x, 0 < (f x).toInt)
    (hf : Function.Injective f) : Fintype.card α ≤ intMax := by
  have hmaps : ∀ x ∈ Finset.univ, (f x).toInt ∈ Finset.Icc (1 : ℤ) intMax := by
    intro x _
    rw [Finset.mem_Icc]
    exact ⟨hpos x, Int32.toInt_le_intMax _⟩
  have hinjective : Set.InjOn (fun x => (f x).toInt) (Finset.univ : Finset α) := by
    intro x _ y _ hxy
    exact hf (Int32.toInt_inj.1 hxy)
  have hcard := Finset.card_le_card_of_injOn _ hmaps hinjective
  rw [Finset.card_univ, Int.card_Icc] at hcard
  omega

section Exact
variable {aaf : AAF n} {grounded : Labeling}

theorem AttackEncodingExact.le_intMax (h : AttackEncodingExact aaf grounded) :
    4 * n + aaf.numberOfAttacks ≤ intMax := by
  have hcard := card_le_intMax h.positive h.fresh
  simp only [Fintype.card_sum, Fintype.card_fin] at hcard
  omega

theorem not_attackTest_of_numberOfAttacks (h : aaf.numberOfAttacks = 0)
    (b : (Set (Fin n) × Set (Fin n)) × (Set (Fin n) × Set (Fin n))) : ¬ AttackTest aaf b := by
  intro hb
  obtain ⟨k, hk, -⟩ := attack_iff_attackPairs.1 hb.attacks
  rw [length_attackPairs, h] at hk
  exact absurd hk (Nat.not_lt_zero k)

theorem toInt_attackerVars (h : 4 * n ≤ intMax) :
    (fun i => ((attackerVars n).1 i).toInt) = (numberPairs n 1).1 ∧
      (fun i => ((attackerVars n).2.1 i).toInt) = (numberPairs n 1).2.1 := by
  rw [attackerVars_eq, numberPairs_eq]
  constructor
  · funext i
    rw [Int32.toInt_ofNat_of_le (by omega)]
    push_cast
    rfl
  · funext i
    rw [Int32.toInt_ofNat_of_le (by omega)]
    push_cast
    rfl

theorem toInt_attackedVars (h : 4 * n ≤ intMax) :
    (fun i => ((attackedVars n).1 i).toInt) = (numberPairs n (numberPairs n 1).2.2).1 ∧
      (fun i => ((attackedVars n).2.1 i).toInt) = (numberPairs n (numberPairs n 1).2.2).2.1 := by
  rw [attackedVars_eq, numberPairs_eq, numberPairs_eq]
  constructor
  · funext i
    rw [Int32.toInt_ofNat_of_le (by omega)]
    push_cast
    rfl
  · funext i
    rw [Int32.toInt_ofNat_of_le (by omega)]
    push_cast
    rfl

/-- The loop over the attacks, as long as their variables are values of `int`. -/
theorem foldl_attackArrays {inVars inAttackedVars : Fin n → Int32}
    (hin : ∀ i, 0 < (inVars i).toInt) (hatt : ∀ i, 0 < (inAttackedVars i).toInt)
    (as : List (Fin n × Fin n)) (s : IpasirSolver) (a : ClauseArray) (k : ℕ) (hk : 0 < k)
    (hlast : k + as.length ≤ intMax + 1) :
    as.foldl (fun (st : IpasirSolver × ClauseArray × Int32) p =>
      (satAddClause3 (satAddClause2 (satAddClause2 st.1 (-st.2.2).toInt (inVars p.1).toInt)
        (-st.2.2).toInt (inAttackedVars p.2).toInt) st.2.2.toInt (-inAttackedVars p.2).toInt
        (-inVars p.1).toInt, st.2.1.write st.2.2.toInt, st.2.2 + 1)) (s, a, Int32.ofNat k) =
      (s.pushAll (attackDefinitions (fun i => (inVars i).toInt)
        (fun i => (inAttackedVars i).toInt) k as), a.writeAll (attackVars k as.length),
        Int32.ofNat (k + as.length)) := by
  induction as generalizing s a k with
  | nil => simp [attackDefinitions, attackVars]
  | cons p as ih =>
    rw [List.length_cons] at hlast
    have hidx : (Int32.ofNat k).toInt = k := Int32.toInt_ofNat_of_le (by omega)
    have hneg : (-Int32.ofNat k).toInt = -k := by
      rw [Int32.toInt_neg_of_pos (by omega), hidx]
    have hne : -(k : ℤ) ≠ 0 := by omega
    have hnext : Int32.ofNat k + 1 = Int32.ofNat (k + 1) := (Int32.ofNat_add k 1).symm
    have hcount : k + 1 + as.length = k + (as.length + 1) := by omega
    rw [List.foldl_cons, hnext, ih _ _ (k + 1) (Nat.succ_pos k) (by omega), attackDefinitions,
      IpasirSolver.pushAll_append, List.length_cons, attackVars, hidx, hneg,
      Int32.toInt_neg_of_pos (hin _), Int32.toInt_neg_of_pos (hatt _),
      satAddClause2_eq hne (hin _).ne', satAddClause2_eq hne (hatt _).ne',
      satAddClause3_eq (by omega) (neg_ne_zero.2 (hatt _).ne') (neg_ne_zero.2 (hin _).ne'),
      ← ClauseArray.write_writeAll, hcount, Nat.cast_succ]
    simp [attackDefinition]

/-- Then the encoder adds the clauses over the integers, and fills its array exactly. -/
theorem addAttackArrays_eq {inVars inAttackedVars : Fin n → Int32}
    (hin : ∀ i, 0 < (inVars i).toInt) (hatt : ∀ i, 0 < (inAttackedVars i).toInt)
    (h : 4 * n + aaf.numberOfAttacks ≤ intMax) (solver : IpasirSolver) :
    addAttackArrays solver inVars aaf inAttackedVars (4 * Int32.ofNat n + 1) =
      (addAttackClauses solver (fun i => (inVars i).toInt) aaf
        (fun i => (inAttackedVars i).toInt) (4 * n + 1),
        ⟨aaf.numberOfAttacks, attackVars (4 * n + 1) aaf.numberOfAttacks, true⟩) := by
  have hloop := foldl_attackArrays hin hatt (attackPairs aaf) solver
    (ClauseArray.malloc aaf.numberOfAttacks) (4 * n + 1) (Nat.succ_pos _)
    (by rw [length_attackPairs]; omega)
  have hcast : ((4 * n + 1 : ℕ) : ℤ) = 4 * n + 1 := by
    push_cast
    rfl
  rw [← offset_eq, length_attackPairs, hcast] at hloop
  have hfilled : (ClauseArray.malloc aaf.numberOfAttacks).writeAll
      (attackVars (4 * n + 1) aaf.numberOfAttacks) =
        ⟨aaf.numberOfAttacks, attackVars (4 * n + 1) aaf.numberOfAttacks, true⟩ := by
    have hbounds := ClauseArray.writeAll_inBounds (ClauseArray.malloc aaf.numberOfAttacks)
      (attackVars (4 * n + 1) aaf.numberOfAttacks) rfl
    rw [length_attackVars, ClauseArray.malloc_inBounds, ClauseArray.malloc_allocated,
      decide_eq_true le_rfl] at hbounds
    rw [ClauseArray.mk.injEq]
    exact ⟨ClauseArray.writeAll_allocated _ _, ClauseArray.writeAll_cells _ _, hbounds⟩
  rw [hfilled, attackPairs, List.foldl_flatMap] at hloop
  simp only [List.foldl_map] at hloop
  have hoffset : (0 : ℤ) < 4 * n + 1 := by omega
  rw [addAttackArrays]
  dsimp only
  rw [hloop, ← attackPairs, addAttackClauses_eq (fun i => (hin i).ne') (fun i => (hatt i).ne') hoffset]
  dsimp only
  rw [satAddClause_eq fun l hl => mem_attackVars_pos hoffset hl,
    List.take_of_length_le (by simp)]

theorem attAdmTestInt_eq (h : 4 * n + aaf.numberOfAttacks ≤ intMax) :
    attAdmTestInt aaf grounded =
      (attAdmTest (numberPairs n 1).1 (numberPairs n 1).2.1
        (numberPairs n (numberPairs n 1).2.2).1 (numberPairs n (numberPairs n 1).2.2).2.1 aaf grounded,
        ⟨aaf.numberOfAttacks, attackVars (4 * n + 1) aaf.numberOfAttacks, true⟩) := by
  have hvars := attackTestVars_numberPairs aaf
  obtain ⟨hin, hout⟩ := toInt_attackerVars (n := n) (by omega)
  obtain ⟨hattIn, hattOut⟩ := toInt_attackedVars (n := n) (by omega)
  have hpos : ∀ i, 0 < ((attackerVars n).1 i).toInt := fun i =>
    (congrFun hin i).trans_gt (hvars.attacker.in_pos i)
  have hattPos : ∀ i, 0 < ((attackedVars n).1 i).toInt := fun i =>
    (congrFun hattIn i).trans_gt (hvars.attacked.in_pos i)
  rw [attAdmTestInt, addAttackArrays_eq hpos hattPos h, hin, hout, hattIn, hattOut]
  rfl

theorem attackVars_eq_ofFn (idx : ℤ) (m : ℕ) :
    attackVars idx m = List.ofFn fun k : Fin m => idx + (k : ℕ) := by
  induction m generalizing idx with
  | zero => rfl
  | succ m ih =>
    rw [attackVars, ih, List.ofFn_succ, List.cons.injEq, List.ofFn_inj]
    constructor
    · exact (add_zero idx).symm
    · funext k
      rw [Fin.val_succ, Nat.cast_succ, add_assoc, add_comm 1]

theorem toInt_attackTestVar (h : 4 * n + aaf.numberOfAttacks ≤ intMax) :
    (fun x => (attackTestVar aaf x).toInt) =
      Sum.elim (Sum.elim (Sum.elim (numberPairs n 1).1 (numberPairs n 1).2.1)
        (Sum.elim (numberPairs n (numberPairs n 1).2.2).1 (numberPairs n (numberPairs n 1).2.2).2.1))
        fun k : Fin aaf.numberOfAttacks => 4 * (n : ℤ) + 1 + (k : ℕ) := by
  obtain ⟨hin, hout⟩ := toInt_attackerVars (n := n) (by omega)
  obtain ⟨hattIn, hattOut⟩ := toInt_attackedVars (n := n) (by omega)
  funext x
  rcases x with ((i | i) | (i | i)) | k
  · exact congrFun hin i
  · exact congrFun hout i
  · exact congrFun hattIn i
  · exact congrFun hattOut i
  · change (4 * Int32.ofNat n + 1 + Int32.ofNat k).toInt = 4 * (n : ℤ) + 1 + (k : ℕ)
    rw [offset_eq, ← Int32.ofNat_add, Int32.toInt_ofNat_of_le (by omega)]
    push_cast
    rfl

/-- The encoding is exact if and only if all its variables are values of `int`. -/
theorem attackEncoding_exact_iff (hg : Grounds aaf grounded) :
    AttackEncodingExact aaf grounded ↔ 4 * n + aaf.numberOfAttacks ≤ intMax := by
  refine ⟨AttackEncodingExact.le_intMax, fun h => ?_⟩
  have hvars := attackTestVars_numberPairs aaf
  have hdesc := attAdmTest_describes hvars hg
  obtain ⟨hin, hout⟩ := toInt_attackerVars (n := n) (by omega)
  obtain ⟨hattIn, hattOut⟩ := toInt_attackedVars (n := n) (by omega)
  have hall := toInt_attackTestVar h
  constructor
  · intro i
    rw [congrFun hin i, congrFun hout i, congrFun hattIn i, congrFun hattOut i]
    simp only [numberPairs_eq]
    omega
  · intro x
    rw [congrFun hall x]
    rcases x with ((i | i) | (i | i)) | k
    · exact hvars.attacker.in_pos i
    · exact hvars.attacker.out_pos i
    · exact hvars.attacked.in_pos i
    · exact hvars.attacked.out_pos i
    · rw [Sum.elim_inr]
      omega
  · intro x y hxy
    apply hvars.injective
    rw [← hall]
    exact congrArg Int32.toInt hxy
  · have hcells : (fun k : Fin aaf.numberOfAttacks => 4 * (n : ℤ) + 1 + (k : ℕ)) =
        fun k => (attackTestVar aaf (.inr k)).toInt := funext fun k => (congrFun hall (.inr k)).symm
    rw [attAdmTestInt_eq h, attackVars_eq_ofFn, hcells]
  · intro S T
    rw [attAdmTestInt_eq h, hin, hattIn]
    constructor
    · rintro ⟨τ, hτ, rfl, rfl⟩
      have htest := hdesc.sound τ hτ
      obtain ⟨b, ⟨a, ha, hab⟩, hb⟩ := htest.attacks
      exact ⟨⟨htest.attacker.admissible, htest.attacker.grounded_in⟩,
        ⟨htest.attacked.admissible, htest.attacked.grounded_in⟩, a, ha, b, hb, hab⟩
    · rintro ⟨⟨hS, hGS⟩, ⟨hT, hGT⟩, a, ha, b, hb, hab⟩
      obtain ⟨τ, hτ, heq⟩ := hdesc.complete
        ((S, aaf.framework.attackedBy S), (T, aaf.framework.attackedBy T))
        ⟨hS.labelling hGS, hT.labelling hGT, b, ⟨a, ha, hab⟩, hb⟩
      rw [twoLabels, Prod.mk.injEq] at heq
      exact ⟨τ, hτ, congrArg Prod.fst heq.1, congrArg Prod.fst heq.2⟩
  · intro hnone τ hτ
    rw [attAdmTestInt_eq h] at hτ
    exact not_attackTest_of_numberOfAttacks hnone _ (hdesc.sound τ hτ)

/-- Two arguments that attack each other, one in the attacking and one in the attacked set. -/
theorem attackEncoding_twoRivals :
    ∃ τ, (attAdmTestInt twoRivals (computeGrounded twoRivals).1).1.Holds τ ∧
      selected τ (fun i => ((attackerVars 2).1 i).toInt) = {0} ∧
      selected τ (fun i => ((attackedVars 2).1 i).toInt) = {1} :=
  (((attackEncoding_exact_iff (computeGrounded_represents twoRivals)).2 (by decide)).satisfiable
    {0} {1}).2
    ⟨⟨(twoRivals_complete 0).admissible, (twoRivals_complete 0).grounded_subset⟩,
      ⟨(twoRivals_complete 1).admissible, (twoRivals_complete 1).grounded_subset⟩,
      0, rfl, 1, rfl, (twoRivals_attacks 0 1).2 (by decide)⟩

end Exact

theorem allAttacking_initial_length (n : ℕ) :
    (BitSet.init (fun _ => 0#32) n).unsetAll.length = n := rfl

def allAttacking (n : ℕ) : AAF n where
  ids2arguments := argNumber
  numberOfAttacks := n * n
  children _ := List.finRange n
  parents _ := List.finRange n
  numberOfAttackers _ := n
  initial := (BitSet.init (fun _ => 0#32) n).unsetAll
  converse i j := by rw [List.count_eq_one_of_mem (List.nodup_finRange n) (List.mem_finRange j),
    List.count_eq_one_of_mem (List.nodup_finRange n) (List.mem_finRange i)]
  attackers_eq _ := (List.length_finRange).symm
  attacks_eq := by simp
  initial_length := allAttacking_initial_length n
  initial_iff j := iff_of_false
    (by rw [BitSet.get_unsetAll _ (Nat.le_of_lt j.isLt)]; exact Bool.false_ne_true)
    (List.ne_nil_of_mem (List.mem_finRange j))

/-- The attacks of 46340 arguments can be counted, but their variables are not all values of
`int`. -/
theorem attackEncoding_allAttacking : (allAttacking 46340).numberOfAttacks = 2147395600 ∧
    2147395600 ≤ intMax ∧
    ¬ AttackEncodingExact (allAttacking 46340) (computeGrounded (allAttacking 46340)).1 := by
  refine ⟨rfl, by decide, fun h => ?_⟩
  exact absurd h.le_intMax (by decide)

end TaasFudge
