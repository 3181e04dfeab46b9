import Ngcorion.Text

/-!
# Unified diffs

The line comparison is a parameter: any function that turns an edit script
between two line lists into the unified format, two file headers first and
then, hunk by hunk, a sign before every line of the script it shows.
-/
namespace UnifiedDiff

open Text

inductive Edit where
  | keep : Str → Edit
  | delete : Str → Edit
  | insert : Str → Edit
  deriving DecidableEq

def Edit.old : Edit → Option Str
  | .keep l => some l
  | .delete l => some l
  | .insert _ => none

def Edit.new : Edit → Option Str
  | .keep l => some l
  | .delete _ => none
  | .insert l => some l

/-- The signed line of a differing line; kept lines are context at most. -/
def Edit.signed : Edit → Option Str
  | .keep _ => none
  | .delete l => some ('-' :: l)
  | .insert l => some ('+' :: l)

def isSigned (line : Str) : Bool := line.head? = some '-' || line.head? = some '+'

/-- `difflib.unified_diff(a, b, lineterm="", n=2)` with the edit script it prints. -/
structure Difflib where
  unified_diff : List Str → List Str → List Str
  script : List Str → List Str → List Edit
  script_old : ∀ a b, (script a b).filterMap Edit.old = a
  script_new : ∀ a b, (script a b).filterMap Edit.new = b
  silent : ∀ a, unified_diff a a = []
  emits : ∀ a b, a ≠ b → ∃ from_header to_header body,
    unified_diff a b = (lit "---" ++ from_header) :: (lit "+++" ++ to_header) :: body ∧
    (∀ l ∈ body, isSigned l = false → startsWith (lit "@@") l = true ∨ startsWith (lit " ") l = true) ∧
    body.filter isSigned = (script a b).filterMap Edit.signed

theorem old_eq_new (s : List Edit) (h : s.filterMap Edit.signed = []) :
    s.filterMap Edit.old = s.filterMap Edit.new := by
  induction s with
  | nil => rfl
  | cons e s ih =>
    cases e with
    | keep l => simpa [Edit.old, Edit.new] using ih (by simpa [Edit.signed] using h)
    | delete l => simp [Edit.signed] at h
    | insert l => simp [Edit.signed] at h

/-- A script without deletions and insertions changes nothing. -/
theorem Difflib.equal_of_no_edit (d : Difflib) (a b : List Str)
    (h : (d.script a b).filterMap Edit.signed = []) : a = b := by
  have he := old_eq_new (d.script a b) h
  rwa [d.script_old, d.script_new] at he

/-- The range text of a hunk header. -/
def range (n : Nat) : Str :=
  if n = 1 then lit "1" else (if n = 0 then lit "0" else lit "1") ++ ',' :: (Nat.repr n).toList

def replaceAll (a b : List Str) : List Edit := a.map Edit.delete ++ b.map Edit.insert

def wholeHunk (a b : List Str) : List Str :=
  (lit "@@ -" ++ range a.length ++ lit " +" ++ range b.length ++ lit " @@") ::
    (a.map (fun l => '-' :: l) ++ b.map (fun l => '+' :: l))

theorem replaceAll_signed (a b : List Str) : (replaceAll a b).filterMap Edit.signed =
    a.map (fun l => '-' :: l) ++ b.map (fun l => '+' :: l) := by
  simp [replaceAll, List.filterMap_append, List.filterMap_map, Function.comp_def, Edit.signed]

/-- The comparison of two texts that share no line: everything goes, everything comes. -/
def disjointDifflib : Difflib where
  unified_diff a b := if a = b then [] else lit "--- " :: lit "+++ " :: wholeHunk a b
  script a b := if a = b then a.map Edit.keep else replaceAll a b
  script_old a b := by
    by_cases h : a = b
    · simp [h, List.filterMap_map, Function.comp_def, Edit.old]
    · simp [h, replaceAll, List.filterMap_append, List.filterMap_map, Function.comp_def, Edit.old]
  script_new a b := by
    by_cases h : a = b
    · simp [h, List.filterMap_map, Function.comp_def, Edit.new]
    · simp [h, replaceAll, List.filterMap_append, List.filterMap_map, Function.comp_def, Edit.new]
  silent a := by simp
  emits a b hab := by
    refine ⟨lit " ", lit " ", wholeHunk a b, by simp [hab, lit], ?_, ?_⟩
    · intro l hl hs
      simp only [wholeHunk, List.mem_cons, List.mem_append, List.mem_map] at hl
      rcases hl with rfl | ⟨m, -, rfl⟩ | ⟨m, -, rfl⟩
      · left; simp [startsWith, lit]
      · simp [isSigned] at hs
      · simp [isSigned] at hs
    · rw [if_neg hab, replaceAll_signed]
      have hd : ∀ l ∈ a.map (fun l => '-' :: l) ++ b.map (fun l => '+' :: l), isSigned l = true := by
        intro l hl
        rcases List.mem_append.mp hl with hl | hl <;>
          (obtain ⟨m, -, rfl⟩ := List.mem_map.mp hl; simp [isSigned])
      rw [wholeHunk, List.filter_cons_of_neg (by simp [isSigned, lit]), List.filter_eq_self.mpr hd]

end UnifiedDiff
