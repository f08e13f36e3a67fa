import TaasFudge.Argumentation.Labelling
import TaasFudge.Taas.Grounded

/-! # Labels and their local correctness

The label of an argument is read off two bits. A check looks at one argument and its
neighbours; passed by all arguments it amounts to the labelling being complete.
-/

namespace TaasFudge

variable {n : ℕ}

inductive Label where
  | labIn | labOut | labUndec | labUnlabeled
  deriving DecidableEq

namespace Labeling

def getLabel (lab : Labeling) (arg : ℕ) : Label :=
  if lab.twoValued then
    if lab.labIn.get arg then .labIn else .labOut
  else if lab.labIn.get arg && !lab.labOut.get arg then .labIn
  else if !lab.labIn.get arg && lab.labOut.get arg then .labOut
  else if !lab.labIn.get arg && !lab.labOut.get arg then .labUndec
  else .labUnlabeled

def setLabel (lab : Labeling) (arg : ℕ) : Label → Labeling
  | .labIn => { lab with labIn := lab.labIn.set arg, labOut := lab.labOut.unset arg }
  | .labOut => { lab with labIn := lab.labIn.unset arg, labOut := lab.labOut.set arg }
  | .labUndec => { lab with labIn := lab.labIn.unset arg, labOut := lab.labOut.unset arg }
  | .labUnlabeled => { lab with labIn := lab.labIn.set arg, labOut := lab.labOut.set arg }

end Labeling

/-- The loop over the attackers of an undecided argument: it stops at one that is IN and notes
whether there is one that is UNDEC. -/
def undecAttackers (label : Fin n → Label) : List (Fin n) → Bool → Bool
  | [], undecAttacker => undecAttacker
  | j :: js, undecAttacker =>
    if label j = .labIn then false
    else undecAttackers label js (if label j = .labUndec then true else undecAttacker)

def labeledCorrectly (aaf : AAF n) (lab : Labeling) (arg : Fin n) : Bool :=
  let label := lab.getLabel arg
  if label = .labIn then
    (aaf.children arg).all (fun j : Fin n => lab.getLabel j = .labOut) &&
      (aaf.parents arg).all fun j : Fin n => lab.getLabel j = .labOut
  else if label = .labOut then
    (aaf.parents arg).any fun j : Fin n => lab.getLabel j = .labIn
  else
    (aaf.children arg).all (fun j : Fin n => lab.getLabel j ≠ .labIn) &&
      undecAttackers (fun j : Fin n => lab.getLabel j) (aaf.parents arg) false

namespace Labeling
variable {lab : Labeling}

def inSet (lab : Labeling) (n : ℕ) : Set (Fin n) := {i | lab.getLabel i = .labIn}

def outSet (lab : Labeling) (n : ℕ) : Set (Fin n) := {i | lab.getLabel i = .labOut}

@[simp] theorem mem_inSet {i : Fin n} : i ∈ lab.inSet n ↔ lab.getLabel i = .labIn := Iff.rfl

@[simp] theorem mem_outSet {i : Fin n} : i ∈ lab.outSet n ↔ lab.getLabel i = .labOut := Iff.rfl

theorem getLabel_eq_labIn (h : lab.twoValued = false) (arg : ℕ) :
    lab.getLabel arg = .labIn ↔ lab.labIn.get arg = true ∧ lab.labOut.get arg = false := by
  rw [getLabel, h]
  cases lab.labIn.get arg <;> cases lab.labOut.get arg <;> simp

theorem getLabel_eq_labOut (h : lab.twoValued = false) (arg : ℕ) :
    lab.getLabel arg = .labOut ↔ lab.labIn.get arg = false ∧ lab.labOut.get arg = true := by
  rw [getLabel, h]
  cases lab.labIn.get arg <;> cases lab.labOut.get arg <;> simp

theorem getLabel_eq_labUnlabeled (h : lab.twoValued = false) (arg : ℕ) :
    lab.getLabel arg = .labUnlabeled ↔ lab.labIn.get arg = true ∧ lab.labOut.get arg = true := by
  rw [getLabel, h]
  cases lab.labIn.get arg <;> cases lab.labOut.get arg <;> simp

/-- In a two-valued labelling the OUT bits do not count. -/
theorem getLabel_of_twoValued (h : lab.twoValued = true) (arg : ℕ) :
    lab.getLabel arg = if lab.labIn.get arg then .labIn else .labOut := by
  rw [getLabel, if_pos h]

/-- A label that was set is read back, and the others stay as they are. -/
theorem getLabel_setLabel (h : lab.twoValued = false) (arg other : ℕ) (label : Label) :
    (lab.setLabel other label).getLabel arg = if arg = other then label else lab.getLabel arg := by
  by_cases harg : arg = other
  · subst harg
    cases label <;> simp [setLabel, getLabel, h]
  · have hne : other ≠ arg := fun h' => harg h'.symm
    cases label <;> simp [setLabel, getLabel, h, harg, hne]

end Labeling

section Check
variable {aaf : AAF n} {lab : Labeling} {arg : Fin n}

theorem undecAttackers_iff (label : Fin n → Label) (xs : List (Fin n)) (b : Bool) :
    undecAttackers label xs b = true ↔
      (∀ j ∈ xs, label j ≠ .labIn) ∧ (b = true ∨ ∃ j ∈ xs, label j = .labUndec) := by
  induction xs generalizing b with
  | nil => simp [undecAttackers]
  | cons x xs ih =>
    rw [undecAttackers, List.forall_mem_cons]
    by_cases hin : label x = .labIn
    · simp [hin]
    · rw [if_neg hin, ih]
      by_cases hundec : label x = .labUndec
      · simp [hundec]
      · simp [hin, hundec]

theorem labeledCorrectly_of_labIn (h : lab.getLabel arg = .labIn) :
    labeledCorrectly aaf lab arg = true ↔
      (∀ j ∈ aaf.children arg, lab.getLabel j = .labOut) ∧
        ∀ j ∈ aaf.parents arg, lab.getLabel j = .labOut := by
  simp [labeledCorrectly, h]

theorem labeledCorrectly_of_labOut (h : lab.getLabel arg = .labOut) :
    labeledCorrectly aaf lab arg = true ↔ ∃ j ∈ aaf.parents arg, lab.getLabel j = .labIn := by
  simp [labeledCorrectly, h]

theorem labeledCorrectly_of_undec (hin : lab.getLabel arg ≠ .labIn)
    (hout : lab.getLabel arg ≠ .labOut) :
    labeledCorrectly aaf lab arg = true ↔
      (∀ j ∈ aaf.children arg, lab.getLabel j ≠ .labIn) ∧
        (∀ j ∈ aaf.parents arg, lab.getLabel j ≠ .labIn) ∧
          ∃ j ∈ aaf.parents arg, lab.getLabel j = .labUndec := by
  simp [labeledCorrectly, hin, hout, undecAttackers_iff]

end Check

section Global
variable {aaf : AAF n} {lab : Labeling}

theorem Labeling.eq_labUndec {j : Fin n} (hlab : lab.getLabel j ≠ .labUnlabeled)
    (hin : lab.getLabel j ≠ .labIn) (hout : lab.getLabel j ≠ .labOut) :
    lab.getLabel j = .labUndec := by
  cases h : lab.getLabel j with
  | labIn => exact absurd h hin
  | labOut => exact absurd h hout
  | labUndec => rfl
  | labUnlabeled => exact absurd h hlab

theorem Labeling.notMem_outSet {j : Fin n} (hin : j ∈ lab.inSet n) : j ∉ lab.outSet n := by
  intro hout
  rw [Labeling.mem_inSet] at hin
  rw [Labeling.mem_outSet, hin] at hout
  cases hout

/-- An undecided argument has an undecided attacker, so with all attackers OUT it is IN. -/
theorem completeLabelling_of_labeledCorrectly (h : ∀ arg, labeledCorrectly aaf lab arg = true) :
    aaf.framework.CompleteLabelling (lab.inSet n) (lab.outSet n) := by
  refine ⟨fun j => Labeling.notMem_outSet, fun a => ⟨fun ha => ?_, fun ha => ?_⟩,
    fun a => ⟨fun ha => ?_, ?_⟩⟩
  · exact ((labeledCorrectly_of_labIn ha).1 (h a)).2
  · by_contra hin
    by_cases hout : lab.getLabel a = .labOut
    · obtain ⟨j, hj, hjin⟩ := (labeledCorrectly_of_labOut hout).1 (h a)
      exact Labeling.notMem_outSet hjin (ha j hj)
    · obtain ⟨-, -, j, hj, hjundec⟩ := (labeledCorrectly_of_undec hin hout).1 (h a)
      have hjout := ha j hj
      rw [Labeling.mem_outSet, hjundec] at hjout
      cases hjout
  · obtain ⟨j, hj, hjin⟩ := (labeledCorrectly_of_labOut ha).1 (h a)
    exact ⟨j, hjin, hj⟩
  · rintro ⟨b, hb, hba⟩
    exact ((labeledCorrectly_of_labIn hb).1 (h b)).1 a (AAF.mem_children.2 hba)

/-- A complete labelling passes the check at each argument, whatever its label. -/
theorem labeledCorrectly_of_completeLabelling
    (hlab : ∀ j : Fin n, lab.getLabel j ≠ .labUnlabeled)
    (h : aaf.framework.CompleteLabelling (lab.inSet n) (lab.outSet n)) (a : Fin n) :
    labeledCorrectly aaf lab a = true := by
  by_cases hin : lab.getLabel a = .labIn
  · apply (labeledCorrectly_of_labIn hin).2
    constructor
    · intro j hj
      exact (h.out_iff j).2 ⟨a, hin, AAF.mem_children.1 hj⟩
    · exact (h.in_iff a).1 hin
  by_cases hout : lab.getLabel a = .labOut
  · apply (labeledCorrectly_of_labOut hout).2
    obtain ⟨j, hjin, hj⟩ := (h.out_iff a).1 hout
    exact ⟨j, hj, hjin⟩
  · apply (labeledCorrectly_of_undec hin hout).2
    have hparents : ∀ j ∈ aaf.parents a, lab.getLabel j ≠ .labIn := by
      intro j hj hjin
      exact hout ((h.out_iff a).2 ⟨j, hjin, hj⟩)
    refine ⟨?_, hparents, ?_⟩
    · intro j hj hjin
      exact hout ((h.in_iff j).1 hjin a (AAF.mem_children.1 hj))
    · by_contra hnone
      push Not at hnone
      apply hin
      apply (h.in_iff a).2
      intro j hj
      by_contra hjout
      exact hnone j hj (Labeling.eq_labUndec (hlab j) (hparents j hj) hjout)

/-- With a label for every argument, the check passes everywhere iff the labelling is complete. What
it does not ask of one argument it asks of a neighbour. -/
theorem forall_labeledCorrectly_iff (hlab : ∀ j : Fin n, lab.getLabel j ≠ .labUnlabeled) :
    (∀ arg, labeledCorrectly aaf lab arg = true) ↔
      aaf.framework.CompleteLabelling (lab.inSet n) (lab.outSet n) :=
  ⟨completeLabelling_of_labeledCorrectly, labeledCorrectly_of_completeLabelling hlab⟩

/-- Three values: IN and OUT are the two bit sets. -/
theorem forall_labeledCorrectly_threeValued (h : lab.twoValued = false)
    (hd : ∀ i : Fin n, lab.labIn.get i = true → lab.labOut.get i = false) :
    (∀ arg, labeledCorrectly aaf lab arg = true) ↔
      aaf.framework.CompleteLabelling {i | lab.labIn.get i = true} {i | lab.labOut.get i = true} := by
  have hin : lab.inSet n = {i : Fin n | lab.labIn.get i = true} := by
    ext i
    exact (Labeling.getLabel_eq_labIn h i).trans ⟨fun hi => hi.1, fun hi => ⟨hi, hd i hi⟩⟩
  have hout : lab.outSet n = {i : Fin n | lab.labOut.get i = true} := by
    ext i
    apply (Labeling.getLabel_eq_labOut h i).trans
    refine ⟨fun hi => hi.2, fun hi => ⟨?_, hi⟩⟩
    rw [Bool.eq_false_iff]
    intro hin'
    have hi' : lab.labOut.get i = true := hi
    rw [hd i hin'] at hi'
    cases hi'
  rw [forall_labeledCorrectly_iff, hin, hout]
  intro j hj
  obtain ⟨hi, ho⟩ := (Labeling.getLabel_eq_labUnlabeled h j).1 hj
  rw [hd j hi] at ho
  cases ho

theorem forall_labeledCorrectly_twoValued (h : lab.twoValued = true) :
    (∀ arg, labeledCorrectly aaf lab arg = true) ↔
      aaf.framework.Stable {i | lab.labIn.get i = true} := by
  have hin : lab.inSet n = {i : Fin n | lab.labIn.get i = true} := by
    ext i
    rw [Labeling.mem_inSet, Labeling.getLabel_of_twoValued h]
    by_cases hi : lab.labIn.get i = true <;> simp [hi]
  have hout : lab.outSet n = {i : Fin n | lab.labIn.get i = true}ᶜ := by
    ext i
    rw [Labeling.mem_outSet, Labeling.getLabel_of_twoValued h]
    by_cases hi : lab.labIn.get i = true <;> simp [hi]
  rw [forall_labeledCorrectly_iff, hin, hout, Framework.completeLabelling_compl_iff]
  intro j hj
  rw [Labeling.getLabel_of_twoValued h] at hj
  split_ifs at hj

/-- The check passes for all arguments exactly under the complete labellings, when there are only
two values under the stable extensions; so it passes under the labelling that is computed. -/
theorem labeledCorrectly_characterises (aaf : AAF n) :
    (∀ lab : Labeling, lab.twoValued = false →
      (∀ i : Fin n, lab.labIn.get i = true → lab.labOut.get i = false) →
      ((∀ arg, labeledCorrectly aaf lab arg = true) ↔ aaf.framework.CompleteLabelling
        {i | lab.labIn.get i = true} {i | lab.labOut.get i = true})) ∧
    (∀ lab : Labeling, lab.twoValued = true →
      ((∀ arg, labeledCorrectly aaf lab arg = true) ↔
        aaf.framework.Stable {i | lab.labIn.get i = true})) ∧
    ∀ arg, labeledCorrectly aaf (computeGrounded aaf).1 arg = true := by
  refine ⟨fun lab => forall_labeledCorrectly_threeValued, fun lab =>
    forall_labeledCorrectly_twoValued, ?_⟩
  have hg := computeGrounded_represents aaf
  have hcomplete := (Framework.grounded_complete (F := aaf.framework)).labelling
  apply (forall_labeledCorrectly_threeValued rfl fun i hi => ?_).2
  · have hin : {i : Fin n | (computeGrounded aaf).1.labIn.get i = true} =
        aaf.framework.grounded := Set.ext hg.in_iff
    have hout : {i : Fin n | (computeGrounded aaf).1.labOut.get i = true} =
        aaf.framework.attackedBy aaf.framework.grounded := Set.ext hg.out_iff
    rwa [hin, hout]
  · rw [Bool.eq_false_iff]
    intro ho
    exact hcomplete.disjoint i ((hg.in_iff i).1 hi) ((hg.out_iff i).1 ho)

end Global

end TaasFudge
