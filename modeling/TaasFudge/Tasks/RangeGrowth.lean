import TaasFudge.Tasks.RangeQuery

/-! # How a labelling grows

Both growth loops compute the same state from a model, although one of them reads
the object while changing it: the values read are those of the last model.
-/

namespace TaasFudge

open Dimacs

variable {n : ℕ} {inVars outVars : Fin n → ℤ}

/-- The pair of literals by which an argument is asked to be labelled. -/
def pairClause (inVars outVars : Fin n → ℤ) (i : Fin n) : Clause := [inVars i, outVars i]

def isIn (m : PartialModel) (inVars : Fin n → ℤ) (i : Fin n) : Bool :=
  decide (0 < m.value (inVars i))

def isLabelled (m : PartialModel) (inVars outVars : Fin n → ℤ) (i : Fin n) : Bool :=
  isIn m inVars i || isIn m outVars i

/-- The state after a growth by the model `m` over the arguments `xs`, of which those with
`new` are kept labelled from now on. -/
def grown (inVars outVars : Fin n → ℤ) (m : PartialModel) (new : Fin n → Bool) (xs : List (Fin n))
    (p : RangeState n × List ℤ) : RangeState n × List ℤ :=
  (⟨p.1.inner.pushAll ((xs.filter new).map (pairClause inVars outVars)),
    (xs.filter new).foldl RaSet.add p.1.notUndec,
    (xs.filter fun i => isLabelled m inVars outVars i && isIn m inVars i).foldl RaSet.add p.1.inArg⟩,
    p.2 ++ (xs.filter fun i => !isLabelled m inVars outVars i).flatMap (pairClause inVars outVars))

def growStep (inVars outVars : Fin n → ℤ) (m : PartialModel) (new : Bool)
    (p : RangeState n × List ℤ) (i : Fin n) : RangeState n × List ℤ :=
  if isLabelled m inVars outVars i then
    (((if new then p.1.keepLabelled inVars outVars i else p.1).takeIn (isIn m inVars i) i), p.2)
  else (p.1, p.2 ++ [inVars i, outVars i])

@[simp] theorem takeIn_inner (st : RangeState n) (b : Bool) (i : Fin n) :
    (st.takeIn b i).inner = st.inner := by cases b <;> rfl

@[simp] theorem takeIn_notUndec (st : RangeState n) (b : Bool) (i : Fin n) :
    (st.takeIn b i).notUndec = st.notUndec := by cases b <;> rfl

theorem takeIn_keepLabelled (st : RangeState n) (b : Bool) (i j : Fin n) :
    (st.takeIn b i).keepLabelled inVars outVars j =
      (st.keepLabelled inVars outVars j).takeIn b i := by cases b <;> rfl

theorem grown_cons (hv : LabelVars inVars outVars) {m : PartialModel} {new : Fin n → Bool}
    (hnew : ∀ i, new i = true → isLabelled m inVars outVars i = true) (x : Fin n)
    (xs : List (Fin n)) (p : RangeState n × List ℤ) :
    grown inVars outVars m new (x :: xs) p =
      grown inVars outVars m new xs (growStep inVars outVars m (new x) p x) := by
  rcases hl : isLabelled m inVars outVars x with _ | _
  · have hn : new x = false := Bool.eq_false_iff.2 fun h => by simp [hnew x h] at hl
    simp [grown, growStep, hl, hn, pairClause]
  · rcases hn : new x with _ | _ <;> rcases hi : isIn m inVars x with _ | _ <;>
      simp [grown, growStep, hl, hn, hi, pairClause, RangeState.takeIn, RangeState.keepLabelled,
        satAddClause2_eq (hv.in_ne x) (hv.out_ne x)]

/-- The step at one argument does not change what the set says about the others. -/
theorem contains_growStep {m : PartialModel} {new : Bool} {p : RangeState n × List ℤ}
    {x i : Fin n} (hne : i ≠ x) :
    (growStep inVars outVars m new p x).1.notUndec.contains i = p.1.notUndec.contains i := by
  rw [growStep]
  split_ifs
  · rw [takeIn_notUndec, Bool.eq_iff_iff]
    simp [RangeState.keepLabelled, hne]
  · rw [takeIn_notUndec]
  · rfl

/-- The loop of growth steps, when the decision to keep an argument labelled is made by what
the set of labelled arguments says about that argument. -/
theorem foldl_growStep (hv : LabelVars inVars outVars) {m : PartialModel} {new : Fin n → Bool}
    (hnew : ∀ i, new i = true → isLabelled m inVars outVars i = true)
    {f : RangeState n × List ℤ → Fin n → RangeState n × List ℤ} {c : Fin n → Bool}
    (hf : ∀ p i, p.1.notUndec.contains i = c i →
      f p i = growStep inVars outVars m (new i) p i) {xs : List (Fin n)} (hxs : xs.Nodup)
    {p : RangeState n × List ℤ} (hp : ∀ i ∈ xs, p.1.notUndec.contains i = c i) :
    xs.foldl f p = grown inVars outVars m new xs p := by
  induction xs generalizing p with
  | nil => simp [grown]
  | cons x xs ih =>
    have hx := List.nodup_cons.1 hxs
    rw [List.foldl_cons, hf p x (hp x (by simp)), grown_cons hv hnew]
    refine ih hx.2 fun i hi => ?_
    have hne : i ≠ x := by
      rintro rfl
      exact hx.1 hi
    rw [contains_growStep hne]
    exact hp i (by simp [hi])

/-- What a growth loop has to compute: arguments that are labelled now are kept labelled,
except the argument of the query. -/
def grownBy (inVars outVars : Fin n → ℤ) (arg : Fin n) (st : RangeState n) :
    RangeState n × List ℤ :=
  grown inVars outVars st.inner.model (fun i => isLabelled st.inner.model inVars outVars i &&
    (!st.notUndec.contains i && decide (arg ≠ i))) (List.finRange n) (st, [])

/-- The first labelling of the inner loop, read from the outer object. -/
def startedBy (inVars outVars : Fin n → ℤ) (m : PartialModel) (st : RangeState n) :
    RangeState n × List ℤ :=
  grown inVars outVars m (isLabelled m inVars outVars) (List.finRange n) (st, [])

theorem rangeStart_of_sat (hv : LabelVars inVars outVars) {solver inner : IpasirSolver}
    (h : solver.state = .sat) :
    rangeStart inVars outVars solver ⟨inner, RaSet.initEmpty n, RaSet.initEmpty n⟩ =
      pure (startedBy inVars outVars solver.model
        ⟨inner, RaSet.initEmpty n, RaSet.initEmpty n⟩) := by
  have hbody : ∀ (p : RangeState n × List ℤ) (i : Fin n), (do
      let isLabelled ← satEitherPos solver (inVars i) (outVars i)
      if isLabelled then
        let isIn ← satPos solver (inVars i)
        pure ((p.1.takeIn isIn i).keepLabelled inVars outVars i, p.2)
      else pure (p.1, p.2 ++ [inVars i, outVars i]) : Prog World (RangeState n × List ℤ)) =
      pure (growStep inVars outVars solver.model (isLabelled solver.model inVars outVars i) p i) := by
    intro p i
    rw [satEitherPos_of_sat h, pure_bind, satPos_of_sat h, pure_bind, growStep, isLabelled, isIn,
      isIn, takeIn_keepLabelled]
    split_ifs <;> rfl
  simp only [rangeStart, hbody, List.foldlM_pure]
  rw [startedBy, foldl_growStep hv (fun i hi => hi) (c := fun _ => false) (fun p i _ => rfl)
    (List.nodup_finRange n) (by simp)]

def growBody (inVars outVars : Fin n → ℤ) (arg : Fin n) (labelled isIn : Fin n → Bool)
    (p : RangeState n × List ℤ) (i : Fin n) : RangeState n × List ℤ :=
  if labelled i then
    (((if !p.1.notUndec.contains i && decide (arg ≠ i)
      then p.1.keepLabelled inVars outVars i else p.1).takeIn (isIn i) i), p.2)
  else (p.1, p.2 ++ [inVars i, outVars i])

theorem foldl_growBody (hv : LabelVars inVars outVars) (arg : Fin n) (st : RangeState n) :
    (List.finRange n).foldl (growBody inVars outVars arg
      (isLabelled st.inner.model inVars outVars) (isIn st.inner.model inVars)) (st, []) =
      grownBy inVars outVars arg st := by
  refine foldl_growStep hv (fun i hi => (Bool.and_eq_true_iff.1 hi).1)
    (c := fun i => st.notUndec.contains i) (fun p i hp => ?_) (List.nodup_finRange n)
    fun i _ => rfl
  rw [growBody, growStep, hp]
  split_ifs <;> simp_all

theorem foldl_two_sets (a b : Fin n → Bool) (xs : List (Fin n)) (s t : RaSet n) :
    xs.foldl (fun (vars : RaSet n × RaSet n) i =>
      (if a i then vars.1.add i else vars.1, if b i then vars.2.add i else vars.2)) (s, t) =
      ((xs.filter a).foldl RaSet.add s, (xs.filter b).foldl RaSet.add t) := by
  induction xs generalizing s t with
  | nil => rfl
  | cons x xs ih =>
    rw [List.foldl_cons, ih, List.filter_cons, List.filter_cons]
    rcases a x <;> rcases b x <;> rfl

theorem contains_foldl_filter (a : Fin n → Bool) (i : Fin n) :
    (((List.finRange n).filter a).foldl RaSet.add (RaSet.initEmpty n)).contains i = a i := by
  rw [Bool.eq_iff_iff, RaSet.contains_iff, RaSet.mem_foldl_add]
  simp

theorem growBuffered_of_sat (hv : LabelVars inVars outVars) {arg : Fin n} {st : RangeState n}
    (h : st.inner.state = .sat) :
    growBuffered inVars outVars arg st = pure (grownBy inVars outVars arg st) := by
  simp only [growBuffered, satEitherPos_of_sat h, satPos_of_sat h, pure_bind, List.foldlM_pure]
  rw [foldl_two_sets (fun i => decide (0 < st.inner.model.value (inVars i)) ||
    decide (0 < st.inner.model.value (outVars i)))
    fun i => decide (0 < st.inner.model.value (inVars i))]
  simp only [contains_foldl_filter]
  rw [← foldl_growBody hv]
  rfl

theorem total_growBuffered (hv : LabelVars inVars outVars) {arg : Fin n} {st : RangeState n}
    (h : st.inner.state = .sat) (w : World) :
    Prog.Total (growBuffered inVars outVars arg st) (fun r w' =>
      r = grownBy inVars outVars arg st ∧ w'.stdout = w.stdout) w := by
  rw [growBuffered_of_sat hv h]
  exact Prog.total_pure.2 ⟨rfl, rfl⟩

theorem total_satPos (solver : IpasirSolver) (v : ℤ) (w : World) :
    Prog.Total (satPos solver v) (fun b w' => b = decide (0 < solver.model.value v) ∧
      w'.stdout = w.stdout) w := by
  rw [satPos, satGet, Prog.total_atomic_bind, Prog.total_pure]
  exact ⟨rfl, rfl⟩

theorem total_satEitherPos (solver : IpasirSolver) (v₁ v₂ : ℤ) (w : World) :
    Prog.Total (satEitherPos solver v₁ v₂) (fun b w' =>
      b = (decide (0 < solver.model.value v₁) || decide (0 < solver.model.value v₂)) ∧
        w'.stdout = w.stdout) w := by
  refine Prog.Total.bind ((total_satPos solver v₁ w).mono ?_)
  rintro b w₁ ⟨rfl, hw₁⟩
  rcases decide (0 < solver.model.value v₁) with _ | _
  · refine (total_satPos solver v₂ w₁).mono ?_
    rintro b w₂ ⟨rfl, hw₂⟩
    exact ⟨rfl, hw₂.trans hw₁⟩
  · exact Prog.total_pure.2 ⟨rfl, hw₁⟩

theorem growBody_model (hv : LabelVars inVars outVars) (arg : Fin n) (a b : Fin n → Bool)
    (p : RangeState n × List ℤ) (i : Fin n) :
    (growBody inVars outVars arg a b p i).1.inner.model = p.1.inner.model := by
  rw [growBody]
  split_ifs
  · rw [takeIn_inner, RangeState.keepLabelled, satAddClause2_eq (hv.in_ne i) (hv.out_ne i)]
    rfl
  · rw [takeIn_inner]
  · rfl

theorem total_growInPlaceAt (hv : LabelVars inVars outVars) (arg : Fin n)
    {p : RangeState n × List ℤ} {m : PartialModel} (hm : p.1.inner.model = m) (i : Fin n)
    (w : World) :
    Prog.Total (growInPlaceAt inVars outVars arg p i) (fun r w' =>
      r = growBody inVars outVars arg (isLabelled m inVars outVars) (isIn m inVars) p i ∧
        w'.stdout = w.stdout) w := by
  refine Prog.Total.bind ((total_satEitherPos _ _ _ w).mono ?_)
  rintro b w₁ ⟨hb, hw₁⟩
  rw [hm] at hb
  rw [growBody, isLabelled, isIn, isIn, ← hb]
  rcases b with _ | _
  · exact Prog.total_pure.2 ⟨rfl, hw₁⟩
  · refine Prog.Total.bind ((total_satPos _ _ w₁).mono ?_)
    rintro c w₂ ⟨rfl, hw₂⟩
    have hmodel : (if !p.1.notUndec.contains i && decide (arg ≠ i)
        then p.1.keepLabelled inVars outVars i else p.1).inner.model = m := by
      split_ifs
      · rw [RangeState.keepLabelled, satAddClause2_eq (hv.in_ne i) (hv.out_ne i)]
        exact hm
      · exact hm
    refine Prog.total_pure.2 ⟨?_, hw₂.trans hw₁⟩
    rw [hmodel]
    rfl

/-- Reading from the object that is being changed gives the values of its last model. -/
theorem total_growInPlace (hv : LabelVars inVars outVars) (arg : Fin n) (st : RangeState n)
    (w : World) :
    Prog.Total (growInPlace inVars outVars arg st) (fun r w' =>
      r = grownBy inVars outVars arg st ∧ w'.stdout = w.stdout) w := by
  rw [← foldl_growBody hv]
  refine (Prog.Total.foldlM (fun pre (p : RangeState n × List ℤ) (w' : World) =>
    (p = pre.foldl (growBody inVars outVars arg (isLabelled st.inner.model inVars outVars)
      (isIn st.inner.model inVars)) (st, []) ∧ p.1.inner.model = st.inner.model) ∧
        w'.stdout = w.stdout) (List.finRange n) ?_ ⟨⟨rfl, rfl⟩, rfl⟩).mono
    fun r w' h => ⟨h.1.1, h.2⟩
  rintro pre i - p w₁ ⟨⟨hp, hm⟩, hw₁⟩
  refine (total_growInPlaceAt hv arg hm i w₁).mono ?_
  rintro r w₂ ⟨rfl, hw₂⟩
  rw [List.foldl_append, ← hp]
  exact ⟨⟨rfl, (growBody_model hv arg _ _ p i).trans hm⟩, hw₂.trans hw₁⟩

end TaasFudge
