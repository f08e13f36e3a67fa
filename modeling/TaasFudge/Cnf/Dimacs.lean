import Mathlib.Algebra.Order.Group.Int
import Mathlib.Algebra.Order.Ring.Int
import Mathlib.Data.List.Sublists
import Mathlib.Data.Set.Basic

/-! # DIMACS clauses and incremental SAT oracles

Literals are non-zero integers, a clause is a list of literals. An oracle answers
a query (clauses and assumptions) with a model or with the verdict that there is
none; which model it picks may depend on the number of queries asked before. A
model may leave variables open as long as every completion satisfies the query.
-/

namespace TaasFudge

namespace Dimacs

abbrev Assignment := ℕ → Bool

abbrev Clause := List ℤ

def Assignment.lit (τ : Assignment) (l : ℤ) : Bool :=
  if 0 < l then τ l.natAbs else !τ l.natAbs

def Assignment.Satisfies (τ : Assignment) (c : Clause) : Prop := ∃ l ∈ c, τ.lit l = true

theorem Assignment.lit_neg (τ : Assignment) {l : ℤ} (hl : 0 < l) : τ.lit (-l) = !τ.lit l := by
  have h : ¬ 0 < -l := by omega
  rw [lit, lit, if_neg h, if_pos hl, Int.natAbs_neg]

@[simp] theorem Assignment.satisfies_nil (τ : Assignment) : ¬ τ.Satisfies [] := by
  simp [Satisfies]

@[simp] theorem Assignment.satisfies_cons (τ : Assignment) (l : ℤ) (c : Clause) :
    τ.Satisfies (l :: c) ↔ τ.lit l = true ∨ τ.Satisfies c := by
  simp [Satisfies]

@[simp] theorem Assignment.satisfies_append (τ : Assignment) (c d : Clause) :
    τ.Satisfies (c ++ d) ↔ τ.Satisfies c ∨ τ.Satisfies d := by
  simp [Satisfies, or_and_right, exists_or]

theorem Assignment.satisfies_map {ι : Type} (τ : Assignment) (xs : List ι) (f : ι → ℤ) :
    τ.Satisfies (xs.map f) ↔ ∃ x ∈ xs, τ.lit (f x) = true := by
  simp [Satisfies]

theorem Assignment.satisfies_flatMap {ι : Type} (τ : Assignment) (xs : List ι)
    (f : ι → Clause) : τ.Satisfies (xs.flatMap f) ↔ ∃ x ∈ xs, τ.Satisfies (f x) := by
  simp only [Satisfies, List.mem_flatMap]
  constructor
  · rintro ⟨l, ⟨x, hx, hl⟩, ht⟩
    exact ⟨x, hx, l, hl, ht⟩
  · rintro ⟨x, hx, l, hl, ht⟩
    exact ⟨l, ⟨x, hx, hl⟩, ht⟩

theorem exists_assignment {ι : Type*} {vars : ι → ℤ} (hpos : ∀ i, 0 < vars i)
    (hinj : Function.Injective vars) (P : ι → Prop) :
    ∃ τ : Assignment, ∀ i, τ.lit (vars i) = true ↔ P i := by
  classical
  refine ⟨fun v => decide (∃ i, (vars i).natAbs = v ∧ P i), fun i => ?_⟩
  rw [Assignment.lit, if_pos (hpos i), decide_eq_true_iff]
  constructor
  · rintro ⟨j, hj, hP⟩
    have hij : vars j = vars i := by have := hpos i; have := hpos j; omega
    exact hinj hij ▸ hP
  · exact fun h => ⟨i, rfl, h⟩

/-- The clauses added so far and the literals assumed for one search. -/
structure Query where
  clauses : List Clause
  assumptions : List ℤ

def Query.SatisfiedBy (q : Query) (τ : Assignment) : Prop :=
  (∀ c ∈ q.clauses, τ.Satisfies c) ∧ ∀ l ∈ q.assumptions, τ.lit l = true

instance (q : Query) (τ : Assignment) : Decidable (q.SatisfiedBy τ) :=
  inferInstanceAs (Decidable ((∀ c ∈ q.clauses, ∃ l ∈ c, τ.lit l = true) ∧
    ∀ l ∈ q.assumptions, τ.lit l = true))

/-- Variables without a value may be completed either way. -/
abbrev PartialModel := ℕ → Option Bool

def PartialModel.Completion (m : PartialModel) (τ : Assignment) : Prop :=
  ∀ v b, m v = some b → τ v = b

/-- The literal itself when true, its negation when false, zero when open. -/
def PartialModel.value (m : PartialModel) (l : ℤ) : ℤ :=
  match m l.natAbs with
  | none => 0
  | some b => if b = decide (0 < l) then l else -l

def Assignment.model (τ : Assignment) : PartialModel := fun v => some (τ v)

theorem PartialModel.completion_getD (m : PartialModel) :
    m.Completion fun v => (m v).getD false := fun v b h => by simp [h]

theorem Assignment.model_completion_iff {τ υ : Assignment} : τ.model.Completion υ ↔ υ = τ := by
  constructor
  · exact fun h => funext fun v => h v (τ v) rfl
  · rintro rfl v b h
    exact Option.some.inj h

theorem PartialModel.value_pos_iff (m : PartialModel) {l : ℤ} (hl : 0 < l) :
    0 < m.value l ↔ m l.natAbs = some true := by
  rcases h : m l.natAbs with _ | _ | _ <;> simp [value, h, hl]
  all_goals omega

theorem PartialModel.value_neg_iff (m : PartialModel) {l : ℤ} (hl : 0 < l) :
    m.value l < 0 ↔ m l.natAbs = some false := by
  rcases h : m l.natAbs with _ | _ | _ <;> simp [value, h, hl]
  all_goals omega

/-- A literal with the value true is true in every completion. -/
theorem PartialModel.Completion.lit_of_value_pos {m : PartialModel} {τ : Assignment}
    (h : m.Completion τ) {l : ℤ} (hl : 0 < l) (hv : 0 < m.value l) : τ.lit l = true := by
  rw [Assignment.lit, if_pos hl]
  exact h _ _ ((m.value_pos_iff hl).1 hv)

/-- A literal true in every completion has the value true. -/
theorem PartialModel.value_pos_of_forall {m : PartialModel} {l : ℤ} (hl : 0 < l)
    (h : ∀ τ, m.Completion τ → τ.lit l = true) : 0 < m.value l := by
  rw [m.value_pos_iff hl]
  have hfalse := h _ m.completion_getD
  rw [Assignment.lit, if_pos hl] at hfalse
  rcases hv : m l.natAbs with _ | b
  · simp [hv] at hfalse
  · simpa [hv] using hfalse

/-- A literal with the value false is false in every completion. -/
theorem PartialModel.Completion.lit_of_value_neg {m : PartialModel} {τ : Assignment}
    (h : m.Completion τ) {l : ℤ} (hl : 0 < l) (hv : m.value l < 0) : τ.lit l = false := by
  rw [Assignment.lit, if_pos hl]
  exact h _ _ ((m.value_neg_iff hl).1 hv)

/-- Truth values that agree with the values of the model are those of a completion. -/
theorem PartialModel.exists_completion (m : PartialModel) {ι : Type*} {vars : ι → ℤ}
    (hpos : ∀ i, 0 < vars i) (hinj : Function.Injective vars) {P : ι → Prop}
    (htrue : ∀ i, 0 < m.value (vars i) → P i) (hfalse : ∀ i, m.value (vars i) < 0 → ¬ P i) :
    ∃ τ, m.Completion τ ∧ ∀ i, τ.lit (vars i) = true ↔ P i := by
  obtain ⟨υ, hυ⟩ := exists_assignment hpos hinj P
  refine ⟨fun v => (m v).getD (υ v), fun v b h => by simp [h], fun i => ?_⟩
  specialize htrue i
  specialize hfalse i
  specialize hυ i
  rw [m.value_pos_iff (hpos i)] at htrue
  rw [m.value_neg_iff (hpos i)] at hfalse
  rw [Assignment.lit, if_pos (hpos i)] at hυ ⊢
  rcases hm : m (vars i).natAbs with _ | _ | _
  · simpa [hm] using hυ
  · simpa [hm] using hfalse hm
  · simpa [hm] using htrue hm

def Assignment.agreement (τ υ : Assignment) : PartialModel := fun v =>
  if τ v = υ v then some (τ v) else none

theorem Assignment.agreement_value_pos_iff (τ υ : Assignment) {l : ℤ} (hl : 0 < l) :
    0 < (τ.agreement υ).value l ↔ τ.lit l = true ∧ υ.lit l = true := by
  rw [PartialModel.value_pos_iff _ hl, agreement, lit, lit, if_pos hl, if_pos hl]
  cases τ l.natAbs <;> cases υ l.natAbs <;> simp

theorem Assignment.agreement_value_neg_iff (τ υ : Assignment) {l : ℤ} (hl : 0 < l) :
    (τ.agreement υ).value l < 0 ↔ τ.lit l = false ∧ υ.lit l = false := by
  rw [PartialModel.value_neg_iff _ hl, agreement, lit, lit, if_pos hl, if_pos hl]
  cases τ l.natAbs <;> cases υ l.natAbs <;> simp

theorem Assignment.value_pos_iff (τ : Assignment) {l : ℤ} (hl : 0 < l) :
    0 < τ.model.value l ↔ τ.lit l = true := by
  simp [PartialModel.value_pos_iff _ hl, model, lit, hl]

theorem Assignment.value_neg_iff (τ : Assignment) {l : ℤ} (hl : 0 < l) :
    τ.model.value l < 0 ↔ τ.lit l = false := by
  simp [PartialModel.value_neg_iff _ hl, model, lit, hl]

inductive Answer where
  | sat (m : PartialModel)
  | unsat

/-- A model answers a query when all its completions satisfy it; the negative answer is
right when nothing does. -/
def Answer.Sound (q : Query) : Answer → Prop
  | .sat m => ∀ τ, m.Completion τ → q.SatisfiedBy τ
  | .unsat => ∀ τ, ¬ q.SatisfiedBy τ

/-- Answers by the number of queries asked before and the query itself. -/
abbrev Oracle := ℕ → Query → Answer

structure SatOracle where
  answer : Oracle
  sound : ∀ k q, (answer k q).Sound q

structure TotalOracle extends SatOracle where
  total : ∀ k q m, answer k q = .sat m → ∃ τ : Assignment, m = τ.model

theorem TotalOracle.cases (ω : TotalOracle) (k : ℕ) (q : Query) :
    (∃ τ : Assignment, ω.answer k q = .sat τ.model ∧ q.SatisfiedBy τ) ∨
      (ω.answer k q = .unsat ∧ ∀ τ, ¬ q.SatisfiedBy τ) := by
  have hs := ω.sound k q
  rcases h : ω.answer k q with m | _
  · obtain ⟨τ, rfl⟩ := ω.total k q m h
    rw [h] at hs
    exact .inl ⟨τ, rfl, hs τ (Assignment.model_completion_iff.2 rfl)⟩
  · rw [h] at hs
    exact .inr ⟨rfl, hs⟩

def Query.maxVar (q : Query) : ℕ :=
  ((q.clauses.flatten ++ q.assumptions).map Int.natAbs).foldr max 0

theorem le_foldr_max {xs : List ℕ} {x : ℕ} (h : x ∈ xs) : x ≤ xs.foldr max 0 := by
  induction xs with
  | nil => simp at h
  | cons y ys ih =>
    rcases List.mem_cons.1 h with rfl | h
    · exact le_max_left _ _
    · exact (ih h).trans (le_max_right _ _)

/-- Only the variables of a query matter for its satisfaction. -/
theorem Query.SatisfiedBy.congr {q : Query} {τ υ : Assignment} (h : q.SatisfiedBy τ)
    (hτ : ∀ v ≤ q.maxVar, υ v = τ v) : q.SatisfiedBy υ := by
  have hlit : ∀ l ∈ q.clauses.flatten ++ q.assumptions, υ.lit l = τ.lit l := by
    intro l hl
    have hv : l.natAbs ≤ q.maxVar := le_foldr_max (List.mem_map_of_mem hl)
    simp only [Assignment.lit, hτ _ hv]
  refine ⟨fun c hc => ?_, fun l hl => ?_⟩
  · obtain ⟨l, hl, ht⟩ := h.1 c hc
    refine ⟨l, hl, ?_⟩
    rw [hlit l (List.mem_append_left _ (List.mem_flatten.2 ⟨c, hc, hl⟩)), ht]
  · rw [hlit l (List.mem_append_right _ hl), h.2 l hl]

def candidates (N : ℕ) : List Assignment :=
  (List.range (N + 1)).sublists.map fun s v => decide (v ∈ s)

theorem exists_candidate (N : ℕ) (τ : Assignment) :
    ∃ υ ∈ candidates N, ∀ v ≤ N, υ v = τ v := by
  refine ⟨fun v => decide (v ∈ (List.range (N + 1)).filter (τ ·)),
    List.mem_map.2 ⟨_, List.mem_sublists.2 List.filter_sublist, rfl⟩, fun v hv => ?_⟩
  have hlt : v < N + 1 := by omega
  simp [hlt]

/-- The oracle that tries all assignments of the query's variables in turn. -/
def exhaustive : TotalOracle where
  answer _ q := match (candidates q.maxVar).find? fun τ => decide (q.SatisfiedBy τ) with
    | some τ => .sat τ.model
    | none => .unsat
  sound _ q := by
    rcases h : (candidates q.maxVar).find? fun τ => decide (q.SatisfiedBy τ) with _ | τ
    · intro τ hτ
      obtain ⟨υ, hυ, hv⟩ := exists_candidate q.maxVar τ
      have hno := List.find?_eq_none.1 h υ hυ
      exact hno (decide_eq_true (hτ.congr hv))
    · intro υ hυ
      rw [Assignment.model_completion_iff.1 hυ]
      simpa using List.find?_some h
  total _ q m h := by
    split at h
    · exact ⟨_, (Answer.sat.inj h).symm⟩
    · cases h

instance : Inhabited TotalOracle := ⟨exhaustive⟩

/-- A sound answer to one query is given by some oracle. -/
theorem SatOracle.exists_answer {k : ℕ} {q : Query} {a : Answer} (h : a.Sound q) :
    ∃ ω : SatOracle, ω.answer k q = a := by
  classical
  refine ⟨⟨fun k' q' => if k' = k ∧ q' = q then a else exhaustive.answer k' q', ?_⟩, ?_⟩
  · intro k' q'
    split_ifs with hq
    · rwa [hq.2]
    · exact exhaustive.sound k' q'
  · exact if_pos ⟨rfl, rfl⟩

/-- The oracle that answers its `k`-th query with `script k` where that is a model. -/
def TotalOracle.scripted (ω : TotalOracle) (script : ℕ → Assignment) : TotalOracle where
  answer k q := if q.SatisfiedBy (script k) then .sat (script k).model else ω.answer k q
  sound k q := by
    split_ifs with h
    · intro τ hτ
      rwa [Assignment.model_completion_iff.1 hτ]
    · exact ω.sound k q
  total k q m h := by
    split_ifs at h
    · exact ⟨_, (Answer.sat.inj h).symm⟩
    · exact ω.total k q m h

theorem TotalOracle.scripted_answer (ω : TotalOracle) (script : ℕ → Assignment) {k : ℕ}
    {q : Query} (h : q.SatisfiedBy (script k)) :
    (ω.scripted script).answer k q = .sat (script k).model := if_pos h

/-- The models found by the first two searches can be chosen. -/
theorem TotalOracle.exists_two_answers {q₀ q₁ : Query} {τ υ : Assignment}
    (h₀ : q₀.SatisfiedBy τ) (h₁ : q₁.SatisfiedBy υ) :
    ∃ ω : TotalOracle, ω.answer 0 q₀ = .sat τ.model ∧ ω.answer 1 q₁ = .sat υ.model :=
  ⟨(default : TotalOracle).scripted fun k => if k = 0 then τ else υ,
    scripted_answer _ _ h₀, scripted_answer _ _ h₁⟩

end Dimacs

end TaasFudge
