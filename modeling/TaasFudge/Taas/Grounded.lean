import Mathlib.Algebra.BigOperators.Fin
import TaasFudge.Argumentation.Range
import TaasFudge.Taas.Aaf

/-! # The grounded labeling by a worklist

`taas__compute_grounded` counts, for every argument, the attacks from arguments not
yet OUT. An argument goes IN and onto the stack when its counter drops to zero. One
invariant ties the counters, the stack and both bit sets together; every round of
the loop keeps it, and with an empty stack it pins down the grounded extension.
-/

namespace TaasFudge

variable {n : ℕ}

/-- What the worklist changes: both bit sets, the attack counters and the stack. -/
structure Worklist (n : ℕ) where
  labIn : BitSet
  labOut : BitSet
  numberOfAttackers : Fin n → ℕ
  stack : List (Fin n)

namespace Worklist

/-- One attack on `j` disappears; an argument without remaining attacks goes IN. -/
def decrease (w : Worklist n) (j : Fin n) : Worklist n :=
  if 0 < w.numberOfAttackers j then
    let counters := Function.update w.numberOfAttackers j (w.numberOfAttackers j - 1)
    if counters j = 0 then
      { w with numberOfAttackers := counters, labIn := w.labIn.set j, stack := j :: w.stack }
    else { w with numberOfAttackers := counters }
  else w

/-- A child of an IN argument: unless it is OUT already it goes OUT, and its own attacks
disappear. -/
def markOut (aaf : AAF n) (w : Worklist n) (c : Fin n) : Worklist n :=
  if w.labOut.get c then w
  else (aaf.children c).foldl decrease { w with labOut := w.labOut.set c }

/-- The while loop over the stack, for at most `fuel` rounds. -/
def run (aaf : AAF n) : ℕ → Worklist n → Worklist n
  | 0, w => w
  | fuel + 1, w => match w.stack with
    | [] => w
    | arg :: rest => run aaf fuel ((aaf.children arg).foldl (markOut aaf) { w with stack := rest })

/-- Every round takes one entry from the stack, and every entry put there costs a counter. -/
def rounds (w : Worklist n) : ℕ := w.stack.length + ∑ j, w.numberOfAttackers j

/-- The initial arguments are IN and on the stack, the last one on top. -/
def start (aaf : AAF n) : Worklist n where
  labIn := aaf.initial
  labOut := (BitSet.init (fun _ => 0#32) n).unsetAll
  numberOfAttackers := aaf.numberOfAttackers
  stack := (aaf.initial.members n).foldl (fun stack a => a :: stack) []

end Worklist

/-- `taas__compute_grounded`: the labeling together with the remaining attack counters. -/
def computeGrounded (aaf : AAF n) : Labeling × (Fin n → ℕ) :=
  let w := Worklist.run aaf (Worklist.start aaf).rounds (Worklist.start aaf)
  (⟨w.labIn, w.labOut, false⟩, w.numberOfAttackers)

namespace Worklist
variable {aaf : AAF n}

theorem decrease_rounds (w : Worklist n) (j : Fin n) : (w.decrease j).rounds ≤ w.rounds := by
  unfold decrease rounds
  dsimp only
  split_ifs with h₁ h₂
  all_goals try exact le_rfl
  all_goals
    have hsum := Finset.sum_update_of_mem (Finset.mem_univ j) w.numberOfAttackers
      (w.numberOfAttackers j - 1)
    have hold := Finset.sum_sdiff (f := w.numberOfAttackers)
      (Finset.singleton_subset_iff.2 (Finset.mem_univ j))
    rw [Finset.sum_singleton] at hold
    simp only [List.length_cons]
    omega

theorem foldl_rounds_le {f : Worklist n → Fin n → Worklist n}
    (hf : ∀ w j, (f w j).rounds ≤ w.rounds) (xs : List (Fin n)) (w : Worklist n) :
    (xs.foldl f w).rounds ≤ w.rounds := by
  induction xs generalizing w with
  | nil => exact le_rfl
  | cons x xs ih => exact (ih (f w x)).trans (hf w x)

theorem markOut_rounds (w : Worklist n) (c : Fin n) : (markOut aaf w c).rounds ≤ w.rounds := by
  unfold markOut
  split_ifs
  · exact le_rfl
  · exact foldl_rounds_le decrease_rounds _ _

theorem run_stack_nil (fuel : ℕ) (w : Worklist n) (h : w.rounds ≤ fuel) :
    (run aaf fuel w).stack = [] := by
  induction fuel generalizing w with
  | zero =>
    unfold rounds at h
    exact List.length_eq_zero_iff.1 (by simp only [run]; omega)
  | succ fuel ih =>
    rw [run]
    rcases hs : w.stack with _ | ⟨arg, rest⟩
    · exact hs
    · refine ih _ ((foldl_rounds_le markOut_rounds _ _).trans ?_)
      simp only [rounds, hs, List.length_cons] at h ⊢
      omega

theorem run_of_stack_nil {w : Worklist n} (h : w.stack = []) (fuel : ℕ) : run aaf fuel w = w := by
  cases fuel with
  | zero => rfl
  | succ fuel => rw [run, h]

theorem run_add (k fuel : ℕ) (w : Worklist n) :
    run aaf (k + fuel) w = run aaf fuel (run aaf k w) := by
  induction k generalizing w with
  | zero => rw [Nat.zero_add, run]
  | succ k ih =>
    rw [Nat.add_right_comm, run, run]
    rcases hs : w.stack with _ | ⟨arg, rest⟩
    · exact (run_of_stack_nil hs fuel).symm
    · exact ih _

/-- More rounds than the loop needs do not change its result. -/
theorem run_of_rounds_le {fuel : ℕ} {w : Worklist n} (h : w.rounds ≤ fuel) :
    run aaf fuel w = run aaf w.rounds w := by
  rw [← Nat.add_sub_cancel' h, run_add, run_of_stack_nil (run_stack_nil _ _ le_rfl)]

/-- Attacks on `j` from arguments that are not OUT. -/
def openAttacks (aaf : AAF n) (w : Worklist n) (j : Fin n) : ℕ :=
  (aaf.parents j).countP fun i : Fin n => !w.labOut.get i

/-- Counters count open attacks, IN is "no open attack", OUT is justified, and all children of
an IN argument are OUT unless it still waits on the stack or is the one being processed. -/
structure Inv (aaf : AAF n) (busy : List (Fin n)) (w : Worklist n) : Prop where
  in_length : w.labIn.length = n
  out_length : w.labOut.length = n
  counter : ∀ j, w.numberOfAttackers j = openAttacks aaf w j
  in_iff : ∀ j : Fin n, w.labIn.get j = true ↔ w.numberOfAttackers j = 0
  out_sound : ∀ c : Fin n, w.labOut.get c = true →
    c ∈ aaf.framework.attackedBy aaf.framework.grounded
  stack_in : ∀ a ∈ w.stack, w.labIn.get a = true
  done : ∀ a : Fin n, w.labIn.get a = true → a ∉ w.stack → a ∉ busy →
    ∀ c ∈ aaf.children a, w.labOut.get c = true

/-- An argument without open attacks is defended by the grounded extension. -/
theorem Inv.in_sound {busy : List (Fin n)} {w : Worklist n} (h : Inv aaf busy w) {j : Fin n}
    (hj : w.labIn.get j = true) : j ∈ aaf.framework.grounded := by
  rw [h.in_iff, h.counter, openAttacks, List.countP_eq_zero] at hj
  refine Framework.mem_grounded.2 fun i hi => h.out_sound i ?_
  simpa using hj i hi

theorem decrease_labOut (w : Worklist n) (j : Fin n) : (w.decrease j).labOut = w.labOut := by
  unfold decrease
  dsimp only
  split_ifs <;> rfl

theorem foldl_decrease_labOut (xs : List (Fin n)) (w : Worklist n) :
    (xs.foldl decrease w).labOut = w.labOut := by
  induction xs generalizing w with
  | nil => rfl
  | cons x xs ih => rw [List.foldl_cons, ih, decrease_labOut]

theorem foldl_decrease_in_length (xs : List (Fin n)) (w : Worklist n) :
    (xs.foldl decrease w).labIn.length = w.labIn.length := by
  induction xs generalizing w with
  | nil => rfl
  | cons x xs ih =>
    rw [List.foldl_cons, ih]
    unfold decrease
    dsimp only
    split_ifs <;> rfl

/-- Effect of one decrease on the counter of `j`, on its IN bit and on the stack. -/
theorem decrease_spec (w : Worklist n) (x j : Fin n) :
    (w.decrease x).numberOfAttackers j = w.numberOfAttackers j - (if x = j then 1 else 0) ∧
    ((w.decrease x).labIn.get j = true ↔
      w.labIn.get j = true ∨ (x = j ∧ w.numberOfAttackers j = 1)) ∧
    (j ∈ (w.decrease x).stack ↔ j ∈ w.stack ∨ (x = j ∧ w.numberOfAttackers j = 1)) := by
  by_cases hxj : x = j
  · subst hxj
    unfold decrease
    dsimp only
    simp only [Function.update_self]
    split_ifs with h₁ h₂
    · have hone : w.numberOfAttackers x = 1 := by omega
      simp [hone]
    · have hne : w.numberOfAttackers x ≠ 1 := by omega
      simp [hne]
    · simp only [true_and]
      refine ⟨by omega, ?_, ?_⟩ <;> exact ⟨Or.inl, fun h => h.resolve_right (by omega)⟩
  · have hval : (x : ℕ) ≠ j := fun h => hxj (Fin.ext h)
    have hjx : j ≠ x := Ne.symm hxj
    unfold decrease
    dsimp only
    split_ifs <;> simp [hxj, hjx, hval, Function.update_of_ne]

/-- Decreasing along a list subtracts multiplicities, and puts IN and onto the stack exactly
the counters that reach zero on the way. -/
theorem foldl_decrease_spec (xs : List (Fin n)) (w : Worklist n) (j : Fin n) :
    (xs.foldl decrease w).numberOfAttackers j = w.numberOfAttackers j - xs.count j ∧
    ((xs.foldl decrease w).labIn.get j = true ↔ w.labIn.get j = true ∨
      (0 < w.numberOfAttackers j ∧ w.numberOfAttackers j ≤ xs.count j)) ∧
    (j ∈ (xs.foldl decrease w).stack ↔ j ∈ w.stack ∨
      (0 < w.numberOfAttackers j ∧ w.numberOfAttackers j ≤ xs.count j)) := by
  induction xs generalizing w with
  | nil =>
    have hno : ¬ (0 < w.numberOfAttackers j ∧ w.numberOfAttackers j ≤ 0) := by omega
    simp only [List.foldl_nil, List.count_nil, hno, or_false, Nat.sub_zero, and_self]
  | cons x xs ih =>
    obtain ⟨h₁, h₂, h₃⟩ := ih (w.decrease x)
    obtain ⟨d₁, d₂, d₃⟩ := decrease_spec w x j
    have hcount : (x :: xs).count j = xs.count j + if x = j then 1 else 0 := by
      simp [List.count_cons]
    rw [List.foldl_cons, h₁, h₂, h₃, d₁, d₂, d₃, hcount]
    split_ifs with hxj
    · refine ⟨by omega, ?_, ?_⟩ <;> rw [or_assoc] <;> refine or_congr_right ?_ <;> omega
    · simp [hxj]

/-- When `c` goes OUT, the open attacks on `j` lose those that come from `c`. -/
theorem openAttacks_set (w : Worklist n) {c : Fin n} (hc : w.labOut.get c = false) (j : Fin n) :
    openAttacks aaf { w with labOut := w.labOut.set c } j =
      openAttacks aaf w j - (aaf.children c).count j := by
  rw [aaf.converse]
  unfold openAttacks
  dsimp only
  induction aaf.parents j with
  | nil => simp
  | cons i is ih =>
    have hle : is.count c ≤ is.countP fun i : Fin n => !w.labOut.get i :=
      List.countP_mono_left fun (i : Fin n) _ hi => by
        have hic : i = c := by simpa using hi
        simp [hic, hc]
    rw [List.countP_cons, List.countP_cons, ih, List.count_cons]
    by_cases hic : i = c
    · subst hic
      simp [hc]
    · have hval : (c : ℕ) ≠ i := fun h => hic (Fin.ext h.symm)
      have hbeq : (i == c) = false := by simp [hic]
      simp only [BitSet.get_set, hval, decide_false, Bool.or_false, hbeq, if_false,
        Bool.false_eq_true]
      split_ifs <;> omega

theorem Inv.markOut {busy : List (Fin n)} {w : Worklist n} (h : Inv aaf busy w) {c : Fin n}
    (hc : c ∈ aaf.framework.attackedBy aaf.framework.grounded) :
    Inv aaf busy (markOut aaf w c) ∧ (Worklist.markOut aaf w c).labOut.get c = true ∧
      ∀ x : Fin n, w.labOut.get x = true → (Worklist.markOut aaf w c).labOut.get x = true := by
  unfold Worklist.markOut
  split_ifs with hout
  · exact ⟨h, hout, fun _ hx => hx⟩
  · have hfalse : w.labOut.get c = false := by simpa using hout
    have hmono : ∀ x : Fin n, w.labOut.get x = true → (w.labOut.set c).get x = true :=
      fun x hx => by simp [hx]
    set w₁ : Worklist n := { w with labOut := w.labOut.set c } with hw₁
    have hspec := foldl_decrease_spec (aaf.children c) w₁
    have hlab : ((aaf.children c).foldl decrease w₁).labOut = w.labOut.set c :=
      foldl_decrease_labOut _ _
    have hopen : ∀ j, openAttacks aaf ((aaf.children c).foldl decrease w₁) j =
        openAttacks aaf w j - (aaf.children c).count j := fun j => by
      rw [← openAttacks_set w hfalse j, openAttacks, openAttacks, hlab]
    refine ⟨⟨?_, ?_, fun j => ?_, fun j => ?_, fun x hx => ?_, fun a ha => ?_,
      fun a ha hs hb x hx => ?_⟩, by simp [hlab], fun x hx => by rw [hlab]; exact hmono x hx⟩
    · rw [foldl_decrease_in_length]
      exact h.in_length
    · rw [hlab]
      exact h.out_length
    · rw [(hspec j).1, hopen, ← h.counter]
    · rw [(hspec j).1, (hspec j).2.1, h.in_iff]
      change _ ↔ w.numberOfAttackers j - _ = 0
      change _ ∨ (0 < w.numberOfAttackers j ∧ w.numberOfAttackers j ≤ _) ↔ _
      omega
    · rw [hlab, BitSet.get_set, Bool.or_eq_true, decide_eq_true_iff] at hx
      rcases hx with hx | hx
      · exact h.out_sound x hx
      · rwa [← Fin.ext hx]
    · rw [(hspec a).2.2] at ha
      rw [(hspec a).2.1]
      exact ha.imp (h.stack_in a) id
    · rw [(hspec a).2.2, not_or] at hs
      rw [(hspec a).2.1] at ha
      rw [hlab]
      exact hmono x (h.done a (ha.resolve_right hs.2) hs.1 hb x hx)

theorem Inv.step {w : Worklist n} {arg : Fin n} {rest : List (Fin n)} (h : Inv aaf [] w)
    (hs : w.stack = arg :: rest) :
    Inv aaf [] ((aaf.children arg).foldl (Worklist.markOut aaf) { w with stack := rest }) := by
  have harg : arg ∈ aaf.framework.grounded := h.in_sound (h.stack_in arg (by simp [hs]))
  have hstart : Inv aaf [arg] { w with stack := rest } :=
    { h with
      stack_in := fun a ha => h.stack_in a (by simp [hs, show a ∈ rest from ha])
      done := fun a ha hr hb => h.done a ha (by
        have hne : a ≠ arg := by simpa using hb
        simp [hs, hne, show a ∉ rest from hr]) (by simp) }
  have key : ∀ (xs : List (Fin n)) (v : Worklist n), (∀ c ∈ xs, arg ∈ aaf.parents c) →
      Inv aaf [arg] v → Inv aaf [arg] (xs.foldl (Worklist.markOut aaf) v) ∧
        (∀ x : Fin n, v.labOut.get x = true →
          (xs.foldl (Worklist.markOut aaf) v).labOut.get x = true) ∧
        ∀ c ∈ xs, (xs.foldl (Worklist.markOut aaf) v).labOut.get c = true := by
    intro xs
    induction xs with
    | nil => exact fun v _ hv => ⟨hv, fun _ hx => hx, fun c hc => by simp at hc⟩
    | cons c cs ih =>
      intro v hcs hv
      obtain ⟨h₁, h₂, h₃⟩ := hv.markOut (c := c) ⟨arg, harg, hcs c (by simp)⟩
      obtain ⟨i₁, i₂, i₃⟩ := ih _ (fun d hd => hcs d (by simp [hd])) h₁
      refine ⟨i₁, fun x hx => i₂ x (h₃ x hx), fun d hd => ?_⟩
      rcases List.mem_cons.1 hd with rfl | hd
      · exact i₂ d h₂
      · exact i₃ d hd
  obtain ⟨h₁, _, h₃⟩ := key (aaf.children arg) _ (fun c hc => AAF.mem_children.1 hc) hstart
  refine { h₁ with done := fun a ha hr _ => ?_ }
  by_cases hne : a = arg
  · subst hne
    exact h₃
  · exact h₁.done a ha hr (by simp [hne])

theorem Inv.run (fuel : ℕ) {w : Worklist n} (h : Inv aaf [] w) :
    Inv aaf [] (Worklist.run aaf fuel w) := by
  induction fuel generalizing w with
  | zero => exact h
  | succ fuel ih =>
    rw [Worklist.run]
    split
    · exact h
    · exact ih (h.step (by assumption))

theorem mem_start_stack {a : Fin n} : a ∈ (start aaf).stack ↔ aaf.initial.get a = true := by
  have hrev : ∀ (xs acc : List (Fin n)),
      xs.foldl (fun stack a => a :: stack) acc = xs.reverse ++ acc := by
    intro xs
    induction xs with
    | nil => intro acc; rfl
    | cons x xs ih => intro acc; simp [ih]
  rw [start, hrev]
  simp [BitSet.mem_members aaf.initial_length]

theorem inv_start (aaf : AAF n) : Inv aaf [] (start aaf) where
  in_length := aaf.initial_length
  out_length := rfl
  counter j := by
    have hno : ∀ i : Fin n, (BitSet.init (fun _ => 0#32) n).unsetAll.get i = false :=
      fun i => BitSet.get_unsetAll _ (by simp)
    rw [openAttacks]
    simp [start, hno, aaf.attackers_eq]
  in_iff j := by
    simp [start, aaf.initial_iff, aaf.attackers_eq]
  out_sound c hc := by
    rw [start, BitSet.get_unsetAll _ (by simp)] at hc
    cases hc
  stack_in a ha := mem_start_stack.1 ha
  done a ha hs := absurd (mem_start_stack.2 ha) hs

/-- With an empty stack the IN arguments are closed under defence. -/
theorem Inv.represents {w : Worklist n} (h : Inv aaf [] w) (hs : w.stack = []) :
    (Labeling.mk w.labIn w.labOut false).Represents aaf.framework.grounded
      (aaf.framework.attackedBy aaf.framework.grounded) := by
  have hclosed : aaf.framework.grounded ⊆ {a : Fin n | w.labIn.get a = true} := by
    refine Framework.grounded_subset_of_closed fun a ha => ?_
    change w.labIn.get a = true
    rw [h.in_iff, h.counter, openAttacks, List.countP_eq_zero]
    intro i hi
    obtain ⟨b, hb, hbi⟩ := ha i hi
    simp [h.done b hb (by simp [hs]) (by simp) i (AAF.mem_children.2 hbi)]
  refine ⟨h.in_length, h.out_length, fun i => ⟨h.in_sound, fun hi => hclosed hi⟩,
    fun i => ⟨h.out_sound i, ?_⟩⟩
  rintro ⟨b, hb, hbi⟩
  exact h.done b (hclosed hb) (by simp [hs]) (by simp) i (AAF.mem_children.2 hbi)

end Worklist

/-- The computed labeling is the grounded extension and what it attacks. -/
theorem computeGrounded_represents (aaf : AAF n) :
    (computeGrounded aaf).1.Represents aaf.framework.grounded
      (aaf.framework.attackedBy aaf.framework.grounded) :=
  ((Worklist.inv_start aaf).run _).represents (Worklist.run_stack_nil _ _ le_rfl)

/-- The counters end at the number of attacks from arguments that are not OUT. -/
theorem computeGrounded_counters (aaf : AAF n) (j : Fin n) :
    (computeGrounded aaf).2 j =
      (aaf.parents j).countP fun i : Fin n => !(computeGrounded aaf).1.labOut.get i :=
  ((Worklist.inv_start aaf).run _).counter j

/-- The loop ends with an empty stack after any sufficient number of rounds; IN is the grounded
extension, OUT what it attacks, no argument is both, and the counters count the attacks from
arguments that are not OUT. -/
theorem computeGrounded_correct (aaf : AAF n) :
    (∀ fuel, (Worklist.start aaf).rounds ≤ fuel →
      (Worklist.run aaf fuel (Worklist.start aaf)).stack = [] ∧
      computeGrounded aaf = (⟨(Worklist.run aaf fuel (Worklist.start aaf)).labIn,
        (Worklist.run aaf fuel (Worklist.start aaf)).labOut, false⟩,
        (Worklist.run aaf fuel (Worklist.start aaf)).numberOfAttackers)) ∧
    (∀ i : Fin n, (computeGrounded aaf).1.labIn.get i = true ↔ i ∈ aaf.framework.grounded) ∧
    (∀ i : Fin n, (computeGrounded aaf).1.labOut.get i = true ↔
      i ∈ aaf.framework.attackedBy aaf.framework.grounded) ∧
    (∀ i : Fin n, (computeGrounded aaf).1.labIn.get i = true →
      (computeGrounded aaf).1.labOut.get i = false) ∧
    ∀ j : Fin n, (computeGrounded aaf).2 j =
      (aaf.parents j).countP fun i : Fin n => !(computeGrounded aaf).1.labOut.get i := by
  have h := computeGrounded_represents aaf
  refine ⟨?_, h.in_iff, h.out_iff, ?_, computeGrounded_counters aaf⟩
  · intro fuel hfuel
    constructor
    · exact Worklist.run_stack_nil fuel _ hfuel
    · rw [Worklist.run_of_rounds_le hfuel, computeGrounded]
  · intro i hin
    rw [Bool.eq_false_iff]
    intro hout
    apply Framework.grounded_complete.notMem_of_grounded_attacks ((h.out_iff i).1 hout)
    exact (h.in_iff i).1 hin

end TaasFudge
