import TaasFudge.Tasks.Reading

/-! # Witnesses as sets of arguments

A task that prints a witness line holds a list of arguments and spells them in one
of three ways.
-/

namespace TaasFudge

open Dimacs

variable {n : ℕ}

/-- The spellings of a witness line: names with blanks in between, names followed by a blank
each, numbers followed by a blank each. -/
inductive Spelling where
  | separated
  | terminated
  | numbered
  deriving DecidableEq

/-- The arguments a task holds when it prints them, in the order of printing. -/
structure Shown (n : ℕ) where
  ids : List (Fin n)
  nodup : ids.Nodup
  spelling : Spelling

namespace Shown

def set (s : Shown n) : Set (Fin n) := {i | i ∈ s.ids}

def line (s : Shown n) (aaf : AAF n) : String :=
  match s.spelling with
  | .separated => "w " ++ joinNames " " (s.ids.map aaf.ids2arguments) ++ "\n"
  | .terminated => terminatedLine aaf.ids2arguments s.ids
  | .numbered => terminatedLine argNumber s.ids

theorem lists (s : Shown n) : Lists s.ids s.set := ⟨s.nodup, fun _ => Iff.rfl⟩

/-- The line of a set spelled by names is a witness line. -/
theorem witnessLine {s : Shown n} (h : s.spelling ≠ .numbered) (aaf : AAF n) :
    WitnessLine aaf s.set (s.line aaf) := by
  obtain ⟨ids, nodup, spelling⟩ := s
  cases spelling with
  | separated => exact .separated ids ⟨nodup, fun _ => Iff.rfl⟩
  | terminated => exact .terminated ids ⟨nodup, fun _ => Iff.rfl⟩
  | numbered => exact absurd rfl h

end Shown

def Labeling.shown (lab : Labeling) (n : ℕ) : Shown n where
  ids := lab.printed n
  nodup := lab.labIn.members_nodup.filter _
  spelling := .separated

def RaSet.shown (s : RaSet n) : Shown n where
  ids := s.elementsArr
  nodup := s.nodup
  spelling := .terminated

@[simp] theorem Labeling.shown_line (lab : Labeling) (aaf : AAF n) :
    (lab.shown n).line aaf = lab.printI23 aaf ++ "\n" := by
  rw [Labeling.printI23, foldl_first]
  rfl

@[simp] theorem RaSet.shown_line (s : RaSet n) (aaf : AAF n) :
    s.shown.line aaf = s.printI23 aaf := rfl

@[simp] theorem RaSet.shown_set (s : RaSet n) : s.shown.set = s.toSet := rfl

/-- The printed arguments of a labeling without an argument both IN and OUT. -/
theorem Labeling.Represents.shown_set {lab : Labeling} {S O : Set (Fin n)}
    (h : lab.Represents S O) (hd : ∀ i ∈ S, i ∉ O) : (lab.shown n).set = S :=
  Set.ext (h.printed_lists hd).mem_iff

theorem Grounds.shown_set {aaf : AAF n} {grounded : Labeling} (hg : Grounds aaf grounded) :
    (grounded.shown n).set = aaf.framework.grounded := by
  apply Labeling.Represents.shown_set hg
  intro i hi ho
  exact Framework.grounded_complete.notMem_of_grounded_attacks ho hi

end TaasFudge
