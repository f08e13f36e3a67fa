import TaasFudge.Argumentation.Ideal
import TaasFudge.Tasks.Reading

/-! # One admissible set attacking another

The solver object whose models are two admissible labellings with an attack from
the first to the second, and the counterexample loop that blocks one admissible
superset of the first set after the other.
-/

namespace TaasFudge

open Dimacs

variable {n : ℕ}

def attackVars : ℤ → ℕ → List ℤ
  | _, 0 => []
  | idx, m + 1 => idx :: attackVars (idx + 1) m

section AttackClauses
variable {inVars inAttackedVars : Fin n → ℤ} {τ : Assignment} {idx : ℤ}

theorem mem_attackVars_pos (h : 0 < idx) {m : ℕ} {l : ℤ} (hl : l ∈ attackVars idx m) : l ≠ 0 := by
  induction m generalizing idx with
  | zero => simp [attackVars] at hl
  | succ m ih =>
    rcases List.mem_cons.1 hl with rfl | hl
    · exact h.ne'
    · exact ih (by omega) hl

@[simp] theorem length_attackVars (idx : ℤ) (m : ℕ) : (attackVars idx m).length = m := by
  induction m generalizing idx with
  | zero => rfl
  | succ m ih => simp [attackVars, ih]

theorem satisfies_attackVars (m : ℕ) :
    τ.Satisfies (attackVars idx m) ↔ ∃ k < m, τ.lit (idx + (k : ℕ)) = true := by
  induction m generalizing idx with
  | zero => simp [attackVars]
  | succ m ih =>
    rw [attackVars, Assignment.satisfies_cons, ih]
    constructor
    · rintro (h | ⟨k, hk, h⟩)
      · exact ⟨0, by omega, by simpa using h⟩
      · exact ⟨k + 1, by omega, by push_cast; rwa [add_assoc, add_comm 1] at h⟩
    · rintro ⟨_ | k, hk, h⟩
      · exact .inl (by simpa using h)
      · refine .inr ⟨k, by omega, ?_⟩
        push_cast at h
        rwa [add_assoc, add_comm 1]

theorem satisfies_attackDefinition (hin : ∀ i, 0 < inVars i) (hatt : ∀ i, 0 < inAttackedVars i)
    (hidx : 0 < idx) (a : Fin n × Fin n) :
    (∀ c ∈ attackDefinition inVars inAttackedVars idx a, τ.Satisfies c) ↔
      (τ.lit idx = true ↔ a.1 ∈ selected τ inVars ∧ a.2 ∈ selected τ inAttackedVars) := by
  simp only [attackDefinition, List.forall_mem_cons, List.not_mem_nil, IsEmpty.forall_iff,
    implies_true, and_true, Assignment.satisfies_cons, Assignment.satisfies_nil, or_false,
    τ.lit_neg hidx, τ.lit_neg (hin _), τ.lit_neg (hatt _), mem_selected]
  rcases τ.lit idx <;> rcases τ.lit (inVars a.1) <;> rcases τ.lit (inAttackedVars a.2) <;> simp

theorem satisfies_attackDefinitions (hin : ∀ i, 0 < inVars i) (hatt : ∀ i, 0 < inAttackedVars i)
    (hidx : 0 < idx) (as : List (Fin n × Fin n)) :
    (∀ c ∈ attackDefinitions inVars inAttackedVars idx as, τ.Satisfies c) ↔
      ∀ k (h : k < as.length), (τ.lit (idx + (k : ℕ)) = true ↔
        as[k].1 ∈ selected τ inVars ∧ as[k].2 ∈ selected τ inAttackedVars) := by
  induction as generalizing idx with
  | nil => simp [attackDefinitions]
  | cons a as ih =>
    rw [attackDefinitions, List.forall_mem_append, satisfies_attackDefinition hin hatt hidx,
      ih (by omega)]
    constructor
    · rintro ⟨h₀, h⟩ (_ | k) hk
      · simpa using h₀
      · have := h k (by simpa using hk)
        rwa [add_assoc, add_comm 1] at this
    · intro h
      have h₀ := h 0 (by simp)
      simp only [List.getElem_cons_zero, Nat.cast_zero, add_zero] at h₀
      refine ⟨h₀, fun k hk => ?_⟩
      have := h (k + 1) (by simpa using hk)
      rw [add_assoc, add_comm 1]
      exact this

theorem mem_attackPairs {aaf : AAF n} {a : Fin n × Fin n} :
    a ∈ attackPairs aaf ↔ aaf.framework.attacks a.1 a.2 := by
  rw [AAF.attacks_iff]
  simp only [attackPairs, List.mem_flatMap, List.mem_finRange, List.mem_map, true_and]
  constructor
  · rintro ⟨i, j, hj, rfl⟩
    exact hj
  · exact fun h => ⟨a.2, a.1, h, rfl⟩

theorem length_attackPairs (aaf : AAF n) : (attackPairs aaf).length = aaf.numberOfAttacks := by
  rw [attackPairs, aaf.attacks_eq, List.length_flatMap]
  simp only [List.length_map]

/-- Some attack from `S` to `T`, in terms of the list of attacks. -/
theorem attack_iff_attackPairs {aaf : AAF n} {S T : Set (Fin n)} :
    (aaf.framework.attackedBy S ∩ T).Nonempty ↔
      ∃ k, ∃ h : k < (attackPairs aaf).length,
        (attackPairs aaf)[k].1 ∈ S ∧ (attackPairs aaf)[k].2 ∈ T := by
  constructor
  · rintro ⟨b, ⟨a, ha, hab⟩, hb⟩
    obtain ⟨k, hk, heq⟩ := List.mem_iff_getElem.1 (mem_attackPairs.2 hab : (a, b) ∈ attackPairs aaf)
    exact ⟨k, hk, by rw [heq]; exact ⟨ha, hb⟩⟩
  · rintro ⟨k, hk, h₁, h₂⟩
    exact ⟨_, ⟨_, h₁, mem_attackPairs.1 (List.getElem_mem hk)⟩, h₂⟩

/-- The loop over the attacks adds their definitions and collects their variables. -/
theorem foldl_attacks (hin : ∀ i, inVars i ≠ 0) (hatt : ∀ i, inAttackedVars i ≠ 0)
    (as : List (Fin n × Fin n)) (hidx : 0 < idx) (s : IpasirSolver) (c : List ℤ) :
    as.foldl (fun (st : IpasirSolver × List ℤ × ℤ) a =>
      (satAddClause3 (satAddClause2 (satAddClause2 st.1 (-st.2.2) (inVars a.1)) (-st.2.2)
        (inAttackedVars a.2)) st.2.2 (-inAttackedVars a.2) (-inVars a.1),
        st.2.1 ++ [st.2.2], st.2.2 + 1)) (s, c, idx) =
      (s.pushAll (attackDefinitions inVars inAttackedVars idx as), c ++ attackVars idx as.length,
        idx + as.length) := by
  induction as generalizing idx s c with
  | nil => simp [attackDefinitions, attackVars]
  | cons a as ih =>
    have hidx' : -idx ≠ 0 := by omega
    have hnext : idx + 1 + (as.length : ℤ) = idx + ((as.length + 1 : ℕ) : ℤ) := by
      push_cast; omega
    rw [List.foldl_cons, ih (show 0 < idx + 1 by omega), attackDefinitions,
      IpasirSolver.pushAll_append, List.length_cons, attackVars, satAddClause2_eq hidx' (hin _),
      satAddClause2_eq hidx' (hatt _),
      satAddClause3_eq hidx.ne' (neg_ne_zero.2 (hatt _)) (neg_ne_zero.2 (hin _)), hnext]
    simp [attackDefinition]

theorem addAttackClauses_eq {aaf : AAF n} (hin : ∀ i, inVars i ≠ 0)
    (hatt : ∀ i, inAttackedVars i ≠ 0) (hidx : 0 < idx) (s : IpasirSolver) :
    addAttackClauses s inVars aaf inAttackedVars idx =
      (s.pushAll (attackDefinitions inVars inAttackedVars idx (attackPairs aaf))).push
        (attackVars idx aaf.numberOfAttacks) := by
  have hloop := foldl_attacks hin hatt (attackPairs aaf) hidx s []
  rw [attackPairs, List.foldl_flatMap] at hloop
  simp only [List.foldl_map] at hloop
  rw [addAttackClauses]
  dsimp only
  rw [hloop, ← attackPairs, List.nil_append, length_attackPairs,
    satAddClause_eq fun l hl => mem_attackVars_pos hidx hl]
  rw [List.take_of_length_le (by simp)]

end AttackClauses

structure AttackTestVars (aaf : AAF n) (inVars outVars inAttackedVars outAttackedVars : Fin n → ℤ)
    (offset : ℤ) : Prop where
  attacker : LabelVars inVars outVars
  attacked : LabelVars inAttackedVars outAttackedVars
  offset_pos : 0 < offset
  injective : Function.Injective
    (Sum.elim (Sum.elim (Sum.elim inVars outVars) (Sum.elim inAttackedVars outAttackedVars))
      fun k : Fin aaf.numberOfAttacks => offset + (k : ℕ))

theorem attackTestVars_numberPairs (aaf : AAF n) :
    AttackTestVars aaf (numberPairs n 1).1 (numberPairs n 1).2.1
      (numberPairs n (numberPairs n 1).2.2).1 (numberPairs n (numberPairs n 1).2.2).2.1
      (4 * n + 1) := by
  refine ⟨labelVars_numberPairs n (by omega), labelVars_numberPairs n ?_, by omega, ?_⟩
  · rw [numberPairs_eq]
    dsimp only
    omega
  · simp only [numberPairs_eq]
    rintro (((i | i) | (i | i)) | i) (((j | j) | (j | j)) | j) hij
    all_goals
      simp only [Sum.elim_inl, Sum.elim_inr, Sum.inl.injEq, Sum.inr.injEq, Fin.ext_iff,
        reduceCtorEq] at hij ⊢
      omega

theorem AttackTestVars.pos {aaf : AAF n}
    {inVars outVars inAttackedVars outAttackedVars : Fin n → ℤ} {offset : ℤ}
    (h : AttackTestVars aaf inVars outVars inAttackedVars outAttackedVars offset)
    (v : ((Fin n ⊕ Fin n) ⊕ (Fin n ⊕ Fin n)) ⊕ Fin aaf.numberOfAttacks) :
    0 < Sum.elim (Sum.elim (Sum.elim inVars outVars)
      (Sum.elim inAttackedVars outAttackedVars))
      (fun k : Fin aaf.numberOfAttacks => offset + (k : ℕ)) v := by
  rcases v with ((i | i) | (i | i)) | k
  · exact h.attacker.in_pos i
  · exact h.attacker.out_pos i
  · exact h.attacked.in_pos i
  · exact h.attacked.out_pos i
  · have := h.offset_pos
    rw [Sum.elim_inr]
    omega

/-- Any four sets are selected by some assignment that respects the attack definitions. -/
theorem AttackTestVars.exists_assignment {aaf : AAF n}
    {inVars outVars inAttackedVars outAttackedVars : Fin n → ℤ} {offset : ℤ}
    (h : AttackTestVars aaf inVars outVars inAttackedVars outAttackedVars offset)
    (S O T U : Set (Fin n)) :
    ∃ τ : Assignment, labels inVars outVars τ = (S, O) ∧
      labels inAttackedVars outAttackedVars τ = (T, U) ∧
      ∀ c ∈ attackDefinitions inVars inAttackedVars offset (attackPairs aaf), τ.Satisfies c := by
  obtain ⟨τ, hτ⟩ := Dimacs.exists_assignment h.pos h.injective
    (Sum.elim (Sum.elim (Sum.elim (· ∈ S) (· ∈ O)) (Sum.elim (· ∈ T) (· ∈ U))) fun k =>
      ∃ hk : (k : ℕ) < (attackPairs aaf).length,
        (attackPairs aaf)[(k : ℕ)].1 ∈ S ∧ (attackPairs aaf)[(k : ℕ)].2 ∈ T)
  have hS : selected τ inVars = S := Set.ext fun i => hτ (.inl (.inl (.inl i)))
  have hT : selected τ inAttackedVars = T := Set.ext fun i => hτ (.inl (.inr (.inl i)))
  refine ⟨τ, Prod.ext hS (Set.ext fun i => hτ (.inl (.inl (.inr i)))),
    Prod.ext hT (Set.ext fun i => hτ (.inl (.inr (.inr i)))), ?_⟩
  rw [satisfies_attackDefinitions h.attacker.in_pos h.attacked.in_pos h.offset_pos, hS, hT]
  intro k hk
  refine (hτ (.inr ⟨k, length_attackPairs aaf ▸ hk⟩)).trans ?_
  exact ⟨fun ⟨_, h⟩ => h, fun h => ⟨hk, h⟩⟩

def attAdmTest (inVars outVars inAttackedVars outAttackedVars : Fin n → ℤ) (aaf : AAF n)
    (grounded : Labeling) : IpasirSolver :=
  let solver := (addAdmTestClauses satInit inVars outVars aaf grounded).2
  let solver := (addAdmTestClauses solver inAttackedVars outAttackedVars aaf grounded).2
  addAttackClauses solver inVars aaf inAttackedVars (4 * n + 1)

/-- The labels of the attacking set and those of the attacked set. -/
def twoLabels (inVars outVars inAttackedVars outAttackedVars : Fin n → ℤ) (τ : Assignment) :
    (Set (Fin n) × Set (Fin n)) × (Set (Fin n) × Set (Fin n)) :=
  (labels inVars outVars τ, labels inAttackedVars outAttackedVars τ)

/-- Two admissible labellings with an attack from the first to the second. -/
structure AttackTest (aaf : AAF n) (b : (Set (Fin n) × Set (Fin n)) × (Set (Fin n) × Set (Fin n))) :
    Prop where
  attacker : aaf.framework.AdmissibleLabelling b.1.1 b.1.2
  attacked : aaf.framework.AdmissibleLabelling b.2.1 b.2.2
  attacks : (aaf.framework.attackedBy b.1.1 ∩ b.2.1).Nonempty

theorem attAdmTest_describes {aaf : AAF n} {grounded : Labeling}
    {inVars outVars inAttackedVars outAttackedVars : Fin n → ℤ}
    (hv : AttackTestVars aaf inVars outVars inAttackedVars outAttackedVars (4 * n + 1))
    (hg : Grounds aaf grounded) :
    (attAdmTest inVars outVars inAttackedVars outAttackedVars aaf grounded).Describes
      (twoLabels inVars outVars inAttackedVars outAttackedVars) (AttackTest aaf) := by
  have h₁ := addAdmTestClauses_encodes hv.attacker hg
  have h₂ := addAdmTestClauses_encodes hv.attacked hg
  rw [attAdmTest, h₁.eq, h₂.eq, addAttackClauses_eq hv.attacker.in_ne hv.attacked.in_ne hv.offset_pos]
  have hc₀ : satInit.openClause = [] := rfl
  have hc₁ := IpasirSolver.pushAll_openClause hc₀ ((List.finRange n).flatMap
    (admClauses inVars outVars aaf grounded))
  have hc₂ := IpasirSolver.pushAll_openClause hc₁ ((List.finRange n).flatMap
    (admClauses inAttackedVars outAttackedVars aaf grounded))
  have hc₃ := IpasirSolver.pushAll_openClause hc₂
    (attackDefinitions inVars inAttackedVars (4 * n + 1) (attackPairs aaf))
  -- the attack clause speaks about the sets once the attack variables are defined
  have hattack : ∀ τ : Assignment,
      (∀ c ∈ attackDefinitions inVars inAttackedVars (4 * n + 1) (attackPairs aaf),
        τ.Satisfies c) → (τ.Satisfies (attackVars (4 * n + 1) aaf.numberOfAttacks) ↔
          (aaf.framework.attackedBy (selected τ inVars) ∩ selected τ inAttackedVars).Nonempty) := by
    intro τ hτ
    rw [satisfies_attackDefinitions hv.attacker.in_pos hv.attacked.in_pos hv.offset_pos] at hτ
    rw [satisfies_attackVars, attack_iff_attackPairs, ← length_attackPairs]
    refine exists_congr fun k => ?_
    exact ⟨fun ⟨hk, h⟩ => ⟨hk, (hτ k hk).1 h⟩, fun ⟨hk, h⟩ => ⟨hk, (hτ k hk).2 h⟩⟩
  refine ⟨rfl, by simp [satInit], fun τ hτ => ?_, ?_⟩
  · rw [IpasirSolver.holds_push hc₃, IpasirSolver.holds_pushAll hc₂,
      IpasirSolver.holds_pushAll hc₁, IpasirSolver.holds_pushAll hc₀, h₁.satisfied_iff,
      h₂.satisfied_iff] at hτ
    obtain ⟨⟨⟨⟨-, ha⟩, hb⟩, hdef⟩, hone⟩ := hτ
    exact ⟨ha, hb, (hattack τ hdef).1 hone⟩
  · rintro ⟨⟨S, O⟩, T, U⟩ ⟨ha, hb, hatt⟩
    obtain ⟨τ, hSO, hTU, hdef⟩ := hv.exists_assignment S O T U
    have hS : selected τ inVars = S := congrArg Prod.fst hSO
    have hO : selected τ outVars = O := congrArg Prod.snd hSO
    have hT : selected τ inAttackedVars = T := congrArg Prod.fst hTU
    have hU : selected τ outAttackedVars = U := congrArg Prod.snd hTU
    refine ⟨τ, ?_, by rw [twoLabels, hSO, hTU]⟩
    rw [IpasirSolver.holds_push hc₃, IpasirSolver.holds_pushAll hc₂,
      IpasirSolver.holds_pushAll hc₁, IpasirSolver.holds_pushAll hc₀, h₁.satisfied_iff,
      h₂.satisfied_iff, hattack τ hdef, hS, hO, hT, hU]
    exact ⟨⟨⟨⟨nofun, ha⟩, hb⟩, hdef⟩, hatt⟩

/-- Pairs of labellings above the core whose attacking set lies in no blocked set. -/
structure Unblocked (aaf : AAF n) (C : Set (Fin n)) (Ms : Set (Set (Fin n)))
    (b : (Set (Fin n) × Set (Fin n)) × (Set (Fin n) × Set (Fin n))) : Prop where
  attackTest : AttackTest aaf b
  core_attacker : C ⊆ b.1.1
  core_attacked : C ⊆ b.2.1
  not_blocked : ∀ M ∈ Ms, ¬ b.1.1 ⊆ M

section Counterexample
variable {aaf : AAF n} {C : Set (Fin n)} {Ms : Set (Set (Fin n))} {a : Fin n}

/-- Blocking a set leaves the pairs whose attacking set is not inside it. -/
theorem unblocked_insert (M : Set (Fin n))
    (b : (Set (Fin n) × Set (Fin n)) × (Set (Fin n) × Set (Fin n))) :
    Unblocked aaf C (insert M Ms) b ↔ Unblocked aaf C Ms b ∧ ¬ b.1.1 ⊆ M := by
  constructor
  · intro h
    exact ⟨⟨h.attackTest, h.core_attacker, h.core_attacked,
      fun M' hM' => h.not_blocked M' (Set.mem_insert_of_mem M hM')⟩,
      h.not_blocked M (Set.mem_insert M Ms)⟩
  · rintro ⟨h, hM⟩
    refine ⟨h.attackTest, h.core_attacker, h.core_attacked, fun M' hM' => ?_⟩
    rcases Set.mem_insert_iff.1 hM' with rfl | hM'
    · exact hM
    · exact h.not_blocked M' hM'

/-- When every blocked set is an admissible set with `a` and nothing attacks an admissible set
with `a` any more, `a` is in every preferred extension. -/
theorem sceptical_of_no_counterexample (hC : ∀ c ∈ C, aaf.framework.Sceptical c)
    (hcred : ∃ S, aaf.framework.Admissible S ∧ a ∈ S)
    (hMs : ∀ M ∈ Ms, aaf.framework.AdmissibleAbove C M ∧ a ∈ M)
    (hno : ∀ b, Unblocked aaf C Ms b → a ∉ b.2.1) : aaf.framework.Sceptical a := by
  rw [Framework.sceptical_iff_extendable hC hcred]
  intro S T hS hT haT hatt
  by_contra hne
  obtain ⟨P, hP, hSP, hCP⟩ := hS.admissible.exists_preferred_above hC
  obtain ⟨Q, hQ, hTQ, hCQ⟩ := hT.admissible.exists_preferred_above hC
  refine hno ((P, _), (Q, _)) ⟨⟨hP.prop.labelling hP.grounded_subset,
    hQ.prop.labelling hQ.grounded_subset, ?_⟩, hCP, hCQ, fun M hM hPM => ?_⟩ (hTQ haT)
  · obtain ⟨b, hb, hbT⟩ := hatt
    exact ⟨b, Framework.attackedBy_mono hSP hb, hTQ hbT⟩
  · exact hne ⟨M, (hMs M hM).1, hSP.trans hPM, (hMs M hM).2⟩

/-- An attacking set that no labelling with `a` contains cannot be extended by `a`. -/
theorem not_extendable_of_no_labelling (hC : ∀ c ∈ C, aaf.framework.Sceptical c)
    {S : Set (Fin n)}
    (hno : ∀ b : Set (Fin n) × Set (Fin n), aaf.framework.AdmissibleLabelling b.1 b.2 ∧ C ⊆ b.1 →
      ¬ (a ∈ b.1 ∧ S ⊆ b.1)) : ¬ aaf.framework.Extendable C a S := by
  rintro ⟨T, hT, hST, haT⟩
  obtain ⟨P, hP, hTP, hCP⟩ := hT.admissible.exists_preferred_above hC
  exact hno (P, _) ⟨hP.prop.labelling hP.grounded_subset, hCP⟩ ⟨hTP haT, hST.trans hTP⟩

end Counterexample

/-- Look for an admissible set that contains the argument and the attacking set. -/
def extensionTest (ω : Oracle) (inVars : Fin n → ℤ) (arg : Fin n)
    (attAdmTest admTest : IpasirSolver) : Prog World (ℤ × IpasirSolver) := do
  let admTest ← satAssume admTest (inVars arg)
  let admTest ← assumePositives attAdmTest inVars admTest
  satSolve ω admTest

theorem total_extensionTest (ω : TotalOracle) {aaf : AAF n} {inVars outVars : Fin n → ℤ}
    (hv : LabelVars inVars outVars) {C : Set (Fin n)} (hC : ∀ c ∈ C, aaf.framework.Sceptical c)
    {a : Fin n} {attAdmTest admTest : IpasirSolver}
    (hadm : admTest.Describes (labels inVars outVars) fun b =>
      aaf.framework.AdmissibleLabelling b.1 b.2 ∧ C ⊆ b.1)
    {τ : Assignment} (hsatState : attAdmTest.state = .sat) (hmodel : attAdmTest.model = τ.model)
    {Q : ℤ × IpasirSolver → World → Prop} {w : World}
    (hsat : ∀ (υ : Assignment) w',
      aaf.framework.AdmissibleLabelling (selected υ inVars) (selected υ outVars) →
      C ⊆ selected υ inVars → a ∈ selected υ inVars → selected τ inVars ⊆ selected υ inVars →
      w'.stdout = w.stdout → Q (10, admTest.satisfied υ.model) w')
    (hunsat : ∀ w', ¬ aaf.framework.Extendable C a (selected τ inVars) →
      w'.stdout = w.stdout → Q (20, admTest.refuted) w') :
    Prog.Total (extensionTest ω.answer inVars a attAdmTest admTest) Q w := by
  have hclosed : (admTest.assume (inVars a)).openClause = [] := hadm.closed
  rw [extensionTest, satAssume_of_closed hadm.closed, pure_bind,
    assumePositives_of_sat hsatState hclosed, pure_bind, hmodel]
  refine hadm.total_satSolve ω (inVars a :: (positives τ.model inVars).map inVars)
    (A := fun b => a ∈ b.1 ∧ selected τ inVars ⊆ b.1) (fun υ => ?_) ?_ ?_
  · rw [List.forall_mem_cons, lit_positives hv.in_pos]
    rfl
  · rintro υ w' ⟨hυ, hCυ⟩ ⟨haυ, hτυ⟩ hw'
    exact hsat υ w' hυ hCυ haυ hτυ hw'
  · intro w' hno hw'
    exact hunsat w' (not_extendable_of_no_labelling hC hno) hw'

section FudgeLoop
variable {aaf : AAF n} {C : Set (Fin n)} {Ms : Set (Set (Fin n))} {arg : Fin n}
  {P : (Set (Fin n) × Set (Fin n)) × (Set (Fin n) × Set (Fin n)) → Prop}
  {inVars outVars inAttackedVars outAttackedVars : Fin n → ℤ}
  {st : IpasirSolver × IpasirSolver}

/-- The invariant over `solver_admTest` and `solver_attAdmTest`: all blocked sets are
admissible sets above the core with the argument. `P` is what else is required of a pair. -/
structure FudgeInv (aaf : AAF n) (C : Set (Fin n)) (arg : Fin n)
    (P : (Set (Fin n) × Set (Fin n)) × (Set (Fin n) × Set (Fin n)) → Prop)
    (inVars outVars inAttackedVars outAttackedVars : Fin n → ℤ)
    (st : IpasirSolver × IpasirSolver) (Ms : Set (Set (Fin n))) : Prop where
  admTest : st.1.Describes (labels inVars outVars) fun b =>
    aaf.framework.AdmissibleLabelling b.1 b.2 ∧ C ⊆ b.1
  attAdmTest : st.2.Describes (twoLabels inVars outVars inAttackedVars outAttackedVars)
    fun b => Unblocked aaf C Ms b ∧ P b
  blocked : ∀ M ∈ Ms, aaf.framework.AdmissibleAbove C M ∧ arg ∈ M

noncomputable def attackersLeft (inVars outVars inAttackedVars outAttackedVars : Fin n → ℤ)
    (solver : IpasirSolver) : ℕ :=
  solver.remaining ((fun b => b.1.1) ∘ twoLabels inVars outVars inAttackedVars outAttackedVars)

/-- Blocking an extension of the attacking set keeps the invariant and leaves fewer sets. -/
theorem FudgeInv.block (hv : LabelVars inVars outVars)
    (h : FudgeInv aaf C arg P inVars outVars inAttackedVars outAttackedVars st Ms)
    {τ υ : Assignment}
    (hτ : Unblocked aaf C Ms (twoLabels inVars outVars inAttackedVars outAttackedVars τ) ∧
      P (twoLabels inVars outVars inAttackedVars outAttackedVars τ))
    (hυ : aaf.framework.AdmissibleLabelling (selected υ inVars) (selected υ outVars))
    (hC : C ⊆ selected υ inVars) (harg : arg ∈ selected υ inVars)
    (hsub : selected τ inVars ⊆ selected υ inVars) :
    FudgeInv aaf C arg P inVars outVars inAttackedVars outAttackedVars
      (st.1.satisfied υ.model,
        (st.2.satisfied τ.model).push ((negatives υ.model inVars).map inVars))
      (insert (selected υ inVars) Ms) ∧
    attackersLeft inVars outVars inAttackedVars outAttackedVars
        ((st.2.satisfied τ.model).push ((negatives υ.model inVars).map inVars)) <
      attackersLeft inVars outVars inAttackedVars outAttackedVars st.2 := by
  have hnext := ((h.attAdmTest.satisfied τ.model).push
    (P := fun b => ¬ b.1.1 ⊆ selected υ inVars) fun τ' => satisfies_negatives hv.in_pos).congr
      (P := fun b => Unblocked aaf C (insert (selected υ inVars) Ms) b ∧ P b)
      fun b => by rw [unblocked_insert, and_right_comm]
  refine ⟨⟨h.admTest.satisfied υ.model, hnext, ?_⟩, ?_⟩
  · rintro M (rfl | hM)
    · exact ⟨⟨hυ.admissible, hC⟩, harg⟩
    · exact h.blocked M hM
  · refine h.attAdmTest.remaining_lt hnext
      (fun b hb => ⟨((unblocked_insert _ _).1 hb.1).1, hb.2⟩) hτ ?_
    rintro b ⟨hb, -⟩ heq
    exact ((unblocked_insert _ _).1 hb).2 (heq ▸ hsub)

end FudgeLoop

end TaasFudge
