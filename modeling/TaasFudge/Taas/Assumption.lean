import TaasFudge.Taas.Labels

/-! # Local correctness under an assumption

A second version of the check takes one argument to have another label than the one that is
stored. It should agree with the first version after relabelling. Most of its tests fall back
to the stored label of that argument, and the test of the attacked arguments is negated.
-/

namespace TaasFudge

variable {n : ℕ}

def labeledCorrectlyUnderAssumption (aaf : AAF n) (lab : Labeling) (arg argOther : Fin n)
    (labOther : Label) : Bool :=
  let label := if arg = argOther then labOther else lab.getLabel arg
  if label = .labIn then
    -- an assumed OUT is not enough, the stored label is tested as well
    let isOut := fun j : Fin n =>
      if j = argOther ∧ labOther ≠ .labOut then false else decide (lab.getLabel j = .labOut)
    (aaf.children arg).all isOut && (aaf.parents arg).all isOut
  else if label = .labOut then
    (aaf.parents arg).any fun j : Fin n =>
      if j = argOther ∧ labOther = .labIn then true else decide (lab.getLabel j = .labIn)
  else
    -- every assumed label other than IN fails
    (aaf.children arg).all (fun j : Fin n =>
      if j = argOther ∧ labOther ≠ .labIn then false else decide (lab.getLabel j ≠ .labIn)) &&
      undecAttackers (fun j : Fin n => if j = argOther then labOther else lab.getLabel j)
        (aaf.parents arg) false

/-- The neighbours of an argument, in the order in which they are visited. -/
def AAF.neighbours (aaf : AAF n) (arg : Fin n) : List (Fin n) :=
  aaf.children arg ++ aaf.parents arg

def Labeling.assumed (lab : Labeling) (argOther : Fin n) (labOther : Label) (arg : Fin n) : Label :=
  if arg = argOther then labOther else lab.getLabel arg

/-- The cases in which the label of `argOther` decides and is taken from the wrong place: it is
assumed OUT and is the only neighbour of an IN argument not stored so; it is assumed not to be IN
and is the only attacker of an OUT argument stored so; or an argument that is otherwise undecided
attacks it, and it is not both assumed and stored IN. -/
def Misjudged (aaf : AAF n) (lab : Labeling) (arg argOther : Fin n) (labOther : Label) : Prop :=
  match lab.assumed argOther labOther arg with
  | .labIn => argOther ∈ aaf.neighbours arg ∧ labOther = .labOut ∧ lab.getLabel argOther ≠ .labOut ∧
      ∀ j ∈ aaf.neighbours arg, j ≠ argOther → lab.getLabel j = .labOut
  | .labOut => argOther ∈ aaf.parents arg ∧ labOther ≠ .labIn ∧ lab.getLabel argOther = .labIn ∧
      ∀ j ∈ aaf.parents arg, j ≠ argOther → lab.getLabel j ≠ .labIn
  | _ => argOther ∈ aaf.children arg ∧ ¬ (labOther = .labIn ∧ lab.getLabel argOther = .labIn) ∧
      (∀ j ∈ aaf.children arg, j ≠ argOther → lab.getLabel j ≠ .labIn) ∧
      (∀ j ∈ aaf.parents arg, lab.assumed argOther labOther j ≠ .labIn) ∧
      ∃ j ∈ aaf.parents arg, lab.assumed argOther labOther j = .labUndec

section Apart
variable {α : Type} {xs : List α} {p q : α → Prop}

theorem forall_mem_apart (a : α) (h : ∀ x, x ≠ a → (p x ↔ q x)) :
    (∀ x ∈ xs, p x) ↔ (a ∈ xs → p a) ∧ ∀ x ∈ xs, x ≠ a → q x := by
  constructor
  · exact fun hp => ⟨hp a, fun x hx hxa => (h x hxa).1 (hp x hx)⟩
  · rintro ⟨ha, hq⟩ x hx
    by_cases hxa : x = a
    · subst hxa
      exact ha hx
    · exact (h x hxa).2 (hq x hx hxa)

theorem exists_mem_apart (a : α) (h : ∀ x, x ≠ a → (p x ↔ q x)) :
    (∃ x ∈ xs, p x) ↔ (a ∈ xs ∧ p a) ∨ ∃ x ∈ xs, x ≠ a ∧ q x := by
  constructor
  · rintro ⟨x, hx, hpx⟩
    by_cases hxa : x = a
    · subst hxa
      exact .inl ⟨hx, hpx⟩
    · exact .inr ⟨x, hx, hxa, (h x hxa).1 hpx⟩
  · rintro (⟨ha, hpa⟩ | ⟨x, hx, hxa, hqx⟩)
    · exact ⟨a, ha, hpa⟩
    · exact ⟨x, hx, (h x hxa).2 hqx⟩

end Apart

section Versions
variable {aaf : AAF n} {lab : Labeling} {arg argOther : Fin n} {labOther : Label}

@[simp] theorem Labeling.assumed_self : lab.assumed argOther labOther argOther = labOther :=
  if_pos rfl

theorem Labeling.assumed_of_ne (h : arg ≠ argOther) :
    lab.assumed argOther labOther arg = lab.getLabel arg := if_neg h

theorem Labeling.getLabel_setLabel_fin (h : lab.twoValued = false) (arg argOther : Fin n)
    (labOther : Label) :
    (lab.setLabel argOther labOther).getLabel arg = lab.assumed argOther labOther arg := by
  rw [Labeling.getLabel_setLabel h, Labeling.assumed]
  simp only [Fin.val_inj]

/-- Where the assumed label is not `l` the test fails, and the stored label is tested besides. -/
theorem test_iff {j : Fin n} {l : Label} {stored : Prop} [Decidable stored] :
    (if j = argOther ∧ labOther ≠ l then false else decide stored) = true ↔
      (j = argOther → labOther = l) ∧ stored := by
  by_cases hj : j = argOther <;> by_cases hl : labOther = l <;> simp [hj, hl]

theorem labeledCorrectlyUnderAssumption_of_labIn
    (h : lab.assumed argOther labOther arg = .labIn) :
    labeledCorrectlyUnderAssumption aaf lab arg argOther labOther = true ↔
      ∀ j ∈ aaf.neighbours arg, (j = argOther → labOther = .labOut) ∧
        lab.getLabel j = .labOut := by
  rw [Labeling.assumed] at h
  rw [labeledCorrectlyUnderAssumption, h]
  simp only [if_true, Bool.and_eq_true, List.all_eq_true, test_iff, AAF.neighbours,
    List.forall_mem_append]

theorem labeledCorrectlyUnderAssumption_of_labOut
    (h : lab.assumed argOther labOther arg = .labOut) :
    labeledCorrectlyUnderAssumption aaf lab arg argOther labOther = true ↔
      ∃ j ∈ aaf.parents arg, (j = argOther ∧ labOther = .labIn) ∨ lab.getLabel j = .labIn := by
  have htest : ∀ j : Fin n, (if j = argOther ∧ labOther = .labIn then true
      else decide (lab.getLabel j = .labIn)) = true ↔
      (j = argOther ∧ labOther = .labIn) ∨ lab.getLabel j = .labIn := by
    intro j
    by_cases hj : j = argOther <;> by_cases hl : labOther = .labIn <;> simp [hj, hl]
  rw [Labeling.assumed] at h
  rw [labeledCorrectlyUnderAssumption, h]
  simp only [reduceCtorEq, if_false, if_true, List.any_eq_true, htest]

theorem labeledCorrectlyUnderAssumption_of_undec
    (hin : lab.assumed argOther labOther arg ≠ .labIn)
    (hout : lab.assumed argOther labOther arg ≠ .labOut) :
    labeledCorrectlyUnderAssumption aaf lab arg argOther labOther = true ↔
      (∀ j ∈ aaf.children arg, (j = argOther → labOther = .labIn) ∧ lab.getLabel j ≠ .labIn) ∧
        (∀ j ∈ aaf.parents arg, lab.assumed argOther labOther j ≠ .labIn) ∧
          ∃ j ∈ aaf.parents arg, lab.assumed argOther labOther j = .labUndec := by
  rw [Labeling.assumed] at hin hout
  rw [labeledCorrectlyUnderAssumption]
  dsimp only
  rw [if_neg hin, if_neg hout]
  simp only [Bool.and_eq_true, List.all_eq_true, test_iff, undecAttackers_iff, Bool.false_eq_true,
    false_or, Labeling.assumed]

/-- For an IN argument an assumed OUT is not enough. -/
theorem assumption_iff_of_labIn (h : lab.assumed argOther labOther arg = .labIn)
    (hset : ∀ j : Fin n,
      (lab.setLabel argOther labOther).getLabel j = lab.assumed argOther labOther j) :
    (labeledCorrectlyUnderAssumption aaf lab arg argOther labOther = true ↔
      labeledCorrectly aaf (lab.setLabel argOther labOther) arg = true) ↔
      ¬ Misjudged aaf lab arg argOther labOther := by
  have hunder : labeledCorrectlyUnderAssumption aaf lab arg argOther labOther = true ↔
      (argOther ∈ aaf.neighbours arg → labOther = .labOut ∧ lab.getLabel argOther = .labOut) ∧
        ∀ j ∈ aaf.neighbours arg, j ≠ argOther → lab.getLabel j = .labOut := by
    rw [labeledCorrectlyUnderAssumption_of_labIn h,
      forall_mem_apart argOther fun j hj => and_iff_right fun hj' => absurd hj' hj]
    simp
  have hcorrect : labeledCorrectly aaf (lab.setLabel argOther labOther) arg = true ↔
      (argOther ∈ aaf.neighbours arg → labOther = .labOut) ∧
        ∀ j ∈ aaf.neighbours arg, j ≠ argOther → lab.getLabel j = .labOut := by
    rw [labeledCorrectly_of_labIn ((hset arg).trans h), ← List.forall_mem_append,
      ← AAF.neighbours]
    simp only [hset]
    rw [forall_mem_apart argOther fun j hj => by rw [Labeling.assumed_of_ne hj],
      Labeling.assumed_self]
  rw [hunder, hcorrect, Misjudged, h]
  grind

theorem assumption_iff_of_labOut (h : lab.assumed argOther labOther arg = .labOut)
    (hset : ∀ j : Fin n,
      (lab.setLabel argOther labOther).getLabel j = lab.assumed argOther labOther j) :
    (labeledCorrectlyUnderAssumption aaf lab arg argOther labOther = true ↔
      labeledCorrectly aaf (lab.setLabel argOther labOther) arg = true) ↔
      ¬ Misjudged aaf lab arg argOther labOther := by
  have hrest : (∀ j ∈ aaf.parents arg, j ≠ argOther → lab.getLabel j ≠ .labIn) ↔
      ¬ ∃ j ∈ aaf.parents arg, j ≠ argOther ∧ lab.getLabel j = .labIn := by
    push Not
    rfl
  have hunder : labeledCorrectlyUnderAssumption aaf lab arg argOther labOther = true ↔
      (argOther ∈ aaf.parents arg ∧ (labOther = .labIn ∨ lab.getLabel argOther = .labIn)) ∨
        ∃ j ∈ aaf.parents arg, j ≠ argOther ∧ lab.getLabel j = .labIn := by
    rw [labeledCorrectlyUnderAssumption_of_labOut h,
      exists_mem_apart argOther fun j hj => or_iff_right fun hj' => hj hj'.1]
    simp
  have hcorrect : labeledCorrectly aaf (lab.setLabel argOther labOther) arg = true ↔
      (argOther ∈ aaf.parents arg ∧ labOther = .labIn) ∨
        ∃ j ∈ aaf.parents arg, j ≠ argOther ∧ lab.getLabel j = .labIn := by
    rw [labeledCorrectly_of_labOut ((hset arg).trans h)]
    simp only [hset]
    rw [exists_mem_apart argOther fun j hj => by rw [Labeling.assumed_of_ne hj],
      Labeling.assumed_self]
  rw [hunder, hcorrect, Misjudged, h]
  dsimp only
  rw [hrest]
  grind

/-- For an undecided argument the test of the attacked arguments is the wrong way round. -/
theorem assumption_iff_of_undec (hin : lab.assumed argOther labOther arg ≠ .labIn)
    (hout : lab.assumed argOther labOther arg ≠ .labOut)
    (hset : ∀ j : Fin n,
      (lab.setLabel argOther labOther).getLabel j = lab.assumed argOther labOther j) :
    (labeledCorrectlyUnderAssumption aaf lab arg argOther labOther = true ↔
      labeledCorrectly aaf (lab.setLabel argOther labOther) arg = true) ↔
      ¬ Misjudged aaf lab arg argOther labOther := by
  have hmis : Misjudged aaf lab arg argOther labOther ↔
      argOther ∈ aaf.children arg ∧ ¬ (labOther = .labIn ∧ lab.getLabel argOther = .labIn) ∧
        (∀ j ∈ aaf.children arg, j ≠ argOther → lab.getLabel j ≠ .labIn) ∧
        (∀ j ∈ aaf.parents arg, lab.assumed argOther labOther j ≠ .labIn) ∧
        ∃ j ∈ aaf.parents arg, lab.assumed argOther labOther j = .labUndec := by
    rw [Misjudged]
    cases h : lab.assumed argOther labOther arg with
    | labIn => exact absurd h hin
    | labOut => exact absurd h hout
    | labUndec => rfl
    | labUnlabeled => rfl
  have hunder : (∀ j ∈ aaf.children arg,
        (j = argOther → labOther = .labIn) ∧ lab.getLabel j ≠ .labIn) ↔
      (argOther ∈ aaf.children arg → labOther = .labIn ∧ lab.getLabel argOther ≠ .labIn) ∧
        ∀ j ∈ aaf.children arg, j ≠ argOther → lab.getLabel j ≠ .labIn := by
    rw [forall_mem_apart argOther fun j hj => and_iff_right fun hj' => absurd hj' hj]
    simp
  have hcorrect : (∀ j ∈ aaf.children arg, lab.assumed argOther labOther j ≠ .labIn) ↔
      (argOther ∈ aaf.children arg → labOther ≠ .labIn) ∧
        ∀ j ∈ aaf.children arg, j ≠ argOther → lab.getLabel j ≠ .labIn := by
    rw [forall_mem_apart argOther fun j hj => by rw [Labeling.assumed_of_ne hj],
      Labeling.assumed_self]
  rw [labeledCorrectlyUnderAssumption_of_undec hin hout,
    labeledCorrectly_of_undec ((hset arg).trans_ne hin) ((hset arg).trans_ne hout), hmis]
  simp only [hset]
  rw [hunder, hcorrect]
  grind

/-- The two versions agree unless the other argument is misjudged. -/
theorem labeledCorrectlyUnderAssumption_iff (h : lab.twoValued = false) :
    labeledCorrectlyUnderAssumption aaf lab arg argOther labOther =
        labeledCorrectly aaf (lab.setLabel argOther labOther) arg ↔
      ¬ Misjudged aaf lab arg argOther labOther := by
  have hset : ∀ j : Fin n, (lab.setLabel argOther labOther).getLabel j =
      lab.assumed argOther labOther j := fun j => Labeling.getLabel_setLabel_fin h j _ _
  rw [Bool.eq_iff_iff]
  by_cases hin : lab.assumed argOther labOther arg = .labIn
  · exact assumption_iff_of_labIn hin hset
  · by_cases hout : lab.assumed argOther labOther arg = .labOut
    · exact assumption_iff_of_labOut hout hset
    · exact assumption_iff_of_undec hin hout hset

end Versions

/-- An OUT argument whose attacker is undecided and assumed to be IN. -/
theorem labeledCorrectlyUnderAssumption_attacked :
    let aaf : AAF 2 := (AAF.withoutAttacks fun _ => "1").addAttack 1 0
    let lab : Labeling := ⟨aaf.initial.unsetAll, aaf.initial.unsetAll.set 0, false⟩
    (1 : Fin 2) ∈ aaf.parents 0 ∧ lab.getLabel 1 = .labUndec ∧ lab.getLabel 0 = .labOut ∧
      labeledCorrectlyUnderAssumption aaf lab 0 1 .labIn =
        labeledCorrectly aaf (lab.setLabel (1 : Fin 2) .labIn) 0 :=
  ⟨by decide, by decide, by decide,
    (labeledCorrectlyUnderAssumption_iff rfl).2 fun hmis => hmis.2.1 rfl⟩

/-- An undecided argument that attacks itself, assumed to be undecided. -/
theorem labeledCorrectlyUnderAssumption_selfAttack :
    ¬ ∀ (n : ℕ) (aaf : AAF n) (lab : Labeling) (arg argOther : Fin n) (labOther : Label),
      lab.twoValued = false →
      (∀ i : Fin n, lab.labIn.get i = true → lab.labOut.get i = false) →
      labOther ≠ .labUnlabeled →
      labeledCorrectlyUnderAssumption aaf lab arg argOther labOther =
        labeledCorrectly aaf (lab.setLabel argOther labOther) arg := by
  intro h
  let aaf : AAF 1 := (AAF.withoutAttacks fun _ => "1").addAttack 0 0
  have hself := h 1 aaf ⟨aaf.initial, aaf.initial, false⟩ 0 0 .labUndec rfl (by decide) (by decide)
  exact absurd hself (by decide)

end TaasFudge
