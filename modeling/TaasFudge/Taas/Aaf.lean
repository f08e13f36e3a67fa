import Mathlib.Algebra.BigOperators.Fin
import TaasFudge.Argumentation.Framework
import TaasFudge.Util.RaSet

/-! # Argumentation frameworks, labelings and their text

The data of a parsed framework, with the relations between its redundant views
that the readers establish, labelings over it, and the printers of argument sets.
-/

namespace TaasFudge

/-- A parsed framework over the arguments `0, …, n-1`. Attack lists keep repetitions; the
children and parents lists are converse with equal multiplicities. -/
structure AAF (n : ℕ) where
  ids2arguments : Fin n → String
  numberOfAttacks : ℕ
  children : Fin n → List (Fin n)
  parents : Fin n → List (Fin n)
  numberOfAttackers : Fin n → ℕ
  initial : BitSet
  converse : ∀ i j, (children i).count j = (parents j).count i
  attackers_eq : ∀ j, numberOfAttackers j = (parents j).length
  attacks_eq : numberOfAttacks = ((List.finRange n).map fun j => (parents j).length).sum
  initial_length : initial.length = n
  initial_iff : ∀ j : Fin n, initial.get j = true ↔ parents j = []

/-- Sets of IN and OUT arguments; of a two-valued labeling only IN counts. -/
structure Labeling where
  labIn : BitSet
  labOut : BitSet
  twoValued : Bool

variable {n : ℕ}

namespace AAF
variable (aaf : AAF n)

def framework : Framework (Fin n) := ⟨fun i j => i ∈ aaf.parents j⟩

variable {aaf}

@[simp] theorem attacks_iff {i j : Fin n} :
    aaf.framework.attacks i j ↔ i ∈ aaf.parents j := Iff.rfl

theorem mem_children {i j : Fin n} : j ∈ aaf.children i ↔ i ∈ aaf.parents j := by
  rw [← List.count_pos_iff, ← List.count_pos_iff, aaf.converse]

theorem mem_attackedBy_iff {S : Set (Fin n)} {j : Fin n} :
    j ∈ aaf.framework.attackedBy S ↔ ∃ i ∈ aaf.parents j, i ∈ S := by
  constructor <;> rintro ⟨i, h₁, h₂⟩ <;> exact ⟨i, h₂, h₁⟩

/-- The framework the readers start from: every argument is initial. -/
def withoutAttacks (ids2arguments : Fin n → String) : AAF n where
  ids2arguments := ids2arguments
  numberOfAttacks := 0
  children _ := []
  parents _ := []
  numberOfAttackers _ := 0
  initial := (BitSet.init (fun _ => 0#32) n).setAll
  converse _ _ := rfl
  attackers_eq _ := rfl
  attacks_eq := by simp
  initial_length := rfl
  initial_iff j := iff_of_true (BitSet.get_setAll _ (Nat.le_of_lt j.isLt)) rfl

def addAttack (aaf : AAF n) (i j : Fin n) : AAF n where
  ids2arguments := aaf.ids2arguments
  numberOfAttacks := aaf.numberOfAttacks + 1
  children := Function.update aaf.children i (j :: aaf.children i)
  parents := Function.update aaf.parents j (i :: aaf.parents j)
  numberOfAttackers := Function.update aaf.numberOfAttackers j (aaf.numberOfAttackers j + 1)
  initial := aaf.initial.unset j
  converse a b := by
    have h := aaf.converse a b
    by_cases ha : a = i <;> by_cases hb : b = j <;>
      simp_all [eq_comm]
  attackers_eq b := by
    have h := aaf.attackers_eq b
    by_cases hb : b = j <;> simp_all
  attacks_eq := by
    have h := aaf.attacks_eq
    rw [← Fin.sum_univ_def] at h ⊢
    have hlen : (fun b => (Function.update aaf.parents j (i :: aaf.parents j) b).length) =
        Function.update (fun b => (aaf.parents b).length) j ((aaf.parents j).length + 1) := by
      funext b
      by_cases hb : b = j <;> simp [hb]
    rw [hlen, Finset.sum_update_of_mem (Finset.mem_univ j), h,
      Finset.sum_eq_add_sum_sdiff_singleton_of_mem (Finset.mem_univ j)]
    omega
  initial_length := aaf.initial_length
  initial_iff b := by
    have h := aaf.initial_iff b
    have hval : (j : ℕ) = b ↔ b = j := by rw [Fin.ext_iff, eq_comm]
    by_cases hb : b = j <;> simp_all

end AAF

/-- The set bits of a bit set of length `n`, as a loop over them visits them. -/
def BitSet.members (b : BitSet) (n : ℕ) : List (Fin n) :=
  b.visit.filterMap fun i => if h : i < n then some ⟨i, h⟩ else none

theorem BitSet.mem_members {b : BitSet} (hb : b.length = n) {i : Fin n} :
    i ∈ b.members n ↔ b.get i = true := by
  simp only [members, List.mem_filterMap, mem_visit, Option.dite_none_right_eq_some]
  constructor
  · rintro ⟨j, ⟨_, hget⟩, hj, hij⟩
    rw [← Option.some.inj hij]
    exact hget
  · exact fun h => ⟨i, ⟨hb ▸ i.isLt, h⟩, i.isLt, rfl⟩

theorem BitSet.members_nodup (b : BitSet) : (b.members n).Nodup := by
  refine b.visit_nodup.filterMap fun i j x hi hj => ?_
  simp only [Option.mem_def, Option.dite_none_right_eq_some, Option.some.injEq] at hi hj
  obtain ⟨_, rfl⟩ := hi
  obtain ⟨_, hj⟩ := hj
  exact (Fin.mk.inj hj).symm

namespace Labeling

/-- The arguments a printer goes through: IN, and not OUT unless the labeling is two-valued. -/
def printed (lab : Labeling) (n : ℕ) : List (Fin n) :=
  (lab.labIn.members n).filter fun i => lab.twoValued || !lab.labOut.get i

/-- `taas__lab_print_i23`: the names after "w ", separated by blanks. -/
def printI23 (lab : Labeling) (aaf : AAF n) : String :=
  (lab.printed n).foldl (fun (acc : String × Bool) i =>
    if acc.2 then (acc.1 ++ aaf.ids2arguments i, false)
    else (acc.1 ++ " " ++ aaf.ids2arguments i, false)) ("w ", true) |>.1

def print (lab : Labeling) (aaf : AAF n) : String :=
  ((lab.printed n).foldl (fun (acc : String × Bool) i =>
    if acc.2 then (acc.1 ++ aaf.ids2arguments i, false)
    else (acc.1 ++ "," ++ aaf.ids2arguments i, false)) ("[", true)).1 ++ "]"

end Labeling

namespace RaSet

def printI23 (s : RaSet n) (aaf : AAF n) : String :=
  s.elementsArr.foldl (fun acc i => acc ++ (aaf.ids2arguments i ++ " ")) "w " ++ "\n"

def print (s : RaSet n) (aaf : AAF n) : String :=
  (s.elementsArr.foldl (fun (acc : String × Bool) i =>
    if acc.2 then (acc.1 ++ aaf.ids2arguments i, false)
    else (acc.1 ++ "," ++ aaf.ids2arguments i, false)) ("[", true)).1 ++ "]\n"

end RaSet

def joinNames (sep : String) : List String → String
  | [] => ""
  | x :: xs => xs.foldl (fun acc y => acc ++ sep ++ y) x

/-- A list that names every member of `E` once. -/
structure Lists (l : List (Fin n)) (E : Set (Fin n)) : Prop where
  nodup : l.Nodup
  mem_iff : ∀ i, i ∈ l ↔ i ∈ E

/-- A line of output that gives the set `E` as a witness, in either spelling of the printers. -/
inductive WitnessLine (aaf : AAF n) (E : Set (Fin n)) : String → Prop
  | separated (l : List (Fin n)) (h : Lists l E) :
      WitnessLine aaf E ("w " ++ joinNames " " (l.map aaf.ids2arguments) ++ "\n")
  | terminated (l : List (Fin n)) (h : Lists l E) :
      WitnessLine aaf E
        (l.foldl (fun acc i => acc ++ (aaf.ids2arguments i ++ " ")) "w " ++ "\n")

/-- A line that gives some set of a family as a witness. -/
def GivesWitness (aaf : AAF n) (P : Set (Fin n) → Prop) (line : String) : Prop :=
  ∃ E, P E ∧ WitnessLine aaf E line

def BracketLine (aaf : AAF n) (E : Set (Fin n)) (line : String) : Prop :=
  ∃ l, Lists l E ∧ line = "[" ++ joinNames "," (l.map aaf.ids2arguments) ++ "]\n"

/-- A first-flag loop prints the names with the separator between them. -/
theorem foldl_first (sep start : String) (l : List (Fin n)) (name : Fin n → String) :
    (l.foldl (fun (acc : String × Bool) i => if acc.2 then (acc.1 ++ name i, false)
      else (acc.1 ++ sep ++ name i, false)) (start, true)).1 =
      start ++ joinNames sep (l.map name) := by
  have hrest : ∀ (l : List (Fin n)) (pre acc : String),
      (l.foldl (fun (acc : String × Bool) i => if acc.2 then (acc.1 ++ name i, false)
        else (acc.1 ++ sep ++ name i, false)) (pre ++ acc, false)).1 =
        pre ++ (l.map name).foldl (fun acc y => acc ++ sep ++ y) acc := by
    intro l
    induction l with
    | nil => intro pre acc; rfl
    | cons x l ih =>
      intro pre acc
      simp only [List.foldl_cons, List.map_cons, Bool.false_eq_true, if_false]
      rw [String.append_assoc, String.append_assoc, ih, ← String.append_assoc]
  cases l with
  | nil => simp [joinNames]
  | cons x l =>
    simp only [List.foldl_cons, List.map_cons, joinNames, if_true]
    exact hrest l start (name x)

theorem RaSet.lists (s : RaSet n) : Lists s.elementsArr s.toSet :=
  ⟨s.nodup, fun _ => Iff.rfl⟩

theorem RaSet.printI23_witness (aaf : AAF n) {s : RaSet n} {E : Set (Fin n)}
    (h : s.toSet = E) : WitnessLine aaf E (s.printI23 aaf) :=
  .terminated _ (h ▸ s.lists)

theorem RaSet.print_bracket (aaf : AAF n) {s : RaSet n} {E : Set (Fin n)} (h : s.toSet = E) :
    BracketLine aaf E (s.print aaf) := by
  refine ⟨_, h ▸ s.lists, ?_⟩
  rw [RaSet.print, foldl_first]

/-- A labeling whose IN and OUT bits are the sets `S` and `O`. -/
structure Labeling.Represents (lab : Labeling) (S O : Set (Fin n)) : Prop where
  in_length : lab.labIn.length = n
  out_length : lab.labOut.length = n
  in_iff : ∀ i : Fin n, lab.labIn.get i = true ↔ i ∈ S
  out_iff : ∀ i : Fin n, lab.labOut.get i = true ↔ i ∈ O

namespace Labeling.Represents
variable {lab : Labeling} {S O : Set (Fin n)}

theorem printed_lists (h : lab.Represents S O) (hd : ∀ i ∈ S, i ∉ O) :
    Lists (lab.printed n) S := by
  refine ⟨lab.labIn.members_nodup.filter _, fun i => ?_⟩
  rw [Labeling.printed, List.mem_filter, BitSet.mem_members h.in_length, h.in_iff]
  refine ⟨fun hi => hi.1, fun hi => ⟨hi, ?_⟩⟩
  have hout : lab.labOut.get i = false := by
    rw [Bool.eq_false_iff]
    exact fun ho => hd i hi ((h.out_iff i).1 ho)
  simp [hout]

theorem printI23_witness (aaf : AAF n) (h : lab.Represents S O) (hd : ∀ i ∈ S, i ∉ O) :
    WitnessLine aaf S (lab.printI23 aaf ++ "\n") := by
  rw [Labeling.printI23, foldl_first]
  exact .separated _ (h.printed_lists hd)

theorem print_bracket (aaf : AAF n) (h : lab.Represents S O) (hd : ∀ i ∈ S, i ∉ O) :
    BracketLine aaf S (lab.print aaf ++ "\n") := by
  refine ⟨_, h.printed_lists hd, ?_⟩
  rw [Labeling.print, foldl_first, String.append_assoc]
  rfl

end Labeling.Represents

end TaasFudge
