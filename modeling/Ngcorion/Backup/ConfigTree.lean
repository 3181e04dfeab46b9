import Ngcorion.Text
import Ngcorion.Dict
import Mathlib.Data.List.Perm.Basic
import Mathlib.Data.List.Nodup

/-!
# Configuration trees and their differences

`ConfigDiff` is what every comparison of two configurations reports: sections
of added, removed and context lines for the preview, the commands that apply
the difference, and what was compared but cannot be restored.

`Forest` is the `children` dictionary of a configuration tree node: the
children in insertion order, each with its key, its line and its own children.
-/
namespace ConfigTree

open Text

inductive Op where
  | added | removed | context
  deriving DecidableEq

structure DiffLine where
  op : Op
  text : Str

structure DiffSection where
  title : Str
  lines : List DiffLine

structure ConfigDiff where
  sections : List DiffSection
  commands : List Str
  skipped : List Str

def ConfigDiff.empty : ConfigDiff := ⟨[], [], []⟩

def ConfigDiff.marks (d : ConfigDiff) : List DiffLine := d.sections.flatMap DiffSection.lines

def ConfigDiff.added (d : ConfigDiff) : Nat := d.marks.countP (fun l => l.op = .added)

def ConfigDiff.removed (d : ConfigDiff) : Nat := d.marks.countP (fun l => l.op = .removed)

def ConfigDiff.is_empty (d : ConfigDiff) : Bool := !d.marks.any (fun l => l.op ≠ .context)

/-- The number of changed lines is zero exactly when the difference is empty. -/
theorem is_empty_iff_counts (d : ConfigDiff) : d.is_empty = true ↔ d.added = 0 ∧ d.removed = 0 := by
  simp only [ConfigDiff.is_empty, ConfigDiff.added, ConfigDiff.removed, List.countP_eq_zero]
  simp only [Bool.not_eq_true', List.any_eq_false, decide_eq_true_eq, ne_eq, Decidable.not_not]
  constructor
  · intro h
    exact ⟨fun l hl => by simp [h l hl], fun l hl => by simp [h l hl]⟩
  · rintro ⟨ha, hr⟩ l hl
    have hla := ha l hl
    have hlr := hr l hl
    cases ho : l.op <;> simp_all

/-- The difference so far, and where the section of the current scope stands in it. -/
structure Marks where
  diff : ConfigDiff
  current : Option Nat

def appendLine (line : DiffLine) (s : DiffSection) : DiffSection := { s with lines := s.lines ++ [line] }

/-- Add a line to the scope's section, opening the section on its first line. -/
def mark (title : Str) (op : Op) (text : Str) (m : Marks) : Marks :=
  match m.current with
  | none => ⟨{ m.diff with sections := m.diff.sections ++ [⟨title, [⟨op, text⟩]⟩] }, some m.diff.sections.length⟩
  | some i => ⟨{ m.diff with sections := m.diff.sections.modify i (appendLine ⟨op, text⟩) }, some i⟩

/-- Mark a flattened subtree, each line indented by its depth. -/
def markAll (width : Nat) (title : Str) (op : Op) (texts : List (Nat × Str)) (m : Marks) : Marks :=
  texts.foldl (fun m t => mark title op (List.replicate (width * t.1) ' ' ++ t.2) m) m

def skip (text : Str) (m : Marks) : Marks := { m with diff := { m.diff with skipped := m.diff.skipped ++ [text] } }

/-- The children of a node in configuration order. -/
inductive Forest where
  | nil : Forest
  | cons (key line : Str) (children rest : Forest) : Forest
  deriving DecidableEq

namespace Forest

def entries : Forest → List (Str × Str × Forest)
  | nil => []
  | cons key line children rest => (key, line, children) :: rest.entries

def ofEntries : List (Str × Str × Forest) → Forest
  | [] => nil
  | (key, line, children) :: es => cons key line children (ofEntries es)

@[simp] theorem entries_nil : nil.entries = [] := rfl
@[simp] theorem entries_cons (key line : Str) (children rest : Forest) :
    (cons key line children rest).entries = (key, line, children) :: rest.entries := rfl

@[simp] theorem entries_ofEntries (es : List (Str × Str × Forest)) : (ofEntries es).entries = es := by
  induction es with
  | nil => rfl
  | cons e es ih => obtain ⟨key, line, children⟩ := e; simp [ofEntries, ih]

@[simp] theorem ofEntries_entries (f : Forest) : ofEntries f.entries = f := by
  induction f with
  | nil => rfl
  | cons key line children rest _ ih => simp [ofEntries, ih]

def keys (f : Forest) : List Str := Dict.keys f.entries

def get (f : Forest) (key : Str) : Option (Str × Forest) := Dict.get f.entries key

def set (f : Forest) (key line : Str) (children : Forest) : Forest :=
  ofEntries (Dict.set f.entries key (line, children))

def erase (f : Forest) (key : Str) : Forest := ofEntries (f.entries.filter (fun e => e.1 ≠ key))

/-- `Node.child`: the child for `key`, created from `line` the first time. -/
def child (f : Forest) (key line : Str) : Forest :=
  if key ∈ f.keys then f else f.set key line nil

/-- Change the scope that a path of keys leads to. -/
def changeAt (change : Forest → Forest) : List Str → Forest → Forest
  | [], f => change f
  | key :: path, f =>
    match f.get key with
    | none => f
    | some (line, children) => f.set key line (changeAt change path children)

/-- `Node.flatten`: the subtree as depths and lines in configuration order. -/
def flatten (depth : Nat) : Forest → List (Nat × Str)
  | nil => []
  | cons _ line children rest => (depth, line) :: (flatten (depth + 1) children ++ flatten depth rest)

@[simp] theorem keys_nil : nil.keys = [] := rfl
@[simp] theorem keys_cons (key line : Str) (children rest : Forest) :
    (cons key line children rest).keys = key :: rest.keys := rfl
@[simp] theorem get_nil (key : Str) : nil.get key = none := rfl

theorem get_cons (key line : Str) (children rest : Forest) (other : Str) :
    (cons key line children rest).get other =
      if key = other then some (line, children) else rest.get other := rfl

theorem get_eq_none (f : Forest) (key : Str) : f.get key = none ↔ key ∉ f.keys := Dict.get_eq_none _ _

theorem mem_keys (f : Forest) (key : Str) : key ∈ f.keys ↔ f.get key ≠ none := by
  rw [Ne, get_eq_none, not_not]

theorem get_eq_some (f : Forest) (h : f.keys.Nodup) (key line : Str) (children : Forest) :
    f.get key = some (line, children) ↔ (key, line, children) ∈ f.entries :=
  ⟨Dict.mem_of_get _ _ _, Dict.get_of_mem _ h _ _⟩

theorem get_set (f : Forest) (key line : Str) (children : Forest) (other : Str) :
    (f.set key line children).get other = if key = other then some (line, children) else f.get other := by
  simp [get, set, Dict.get_set]

theorem keys_set (f : Forest) (key line : Str) (children : Forest) :
    (f.set key line children).keys = if key ∈ f.keys then f.keys else f.keys ++ [key] := by
  simp only [keys, set, entries_ofEntries, Dict.keys_set]
  by_cases h : key ∈ Dict.keys f.entries <;> simp [h]

theorem nodup_set (f : Forest) (key line : Str) (children : Forest) (h : f.keys.Nodup) :
    (f.set key line children).keys.Nodup := by
  simpa [keys, set] using Dict.nodup_set f.entries key (line, children) h

theorem keys_erase (f : Forest) (key : Str) : (f.erase key).keys = f.keys.filter (· ≠ key) := by
  simp [keys, erase, Dict.keys, List.filter_map, Function.comp_def]

theorem get_erase (f : Forest) (key other : Str) :
    (f.erase key).get other = if key = other then none else f.get other := by
  simp only [get, erase, entries_ofEntries]
  exact Dict.get_erase f.entries key other

/-- The scope that a path of keys leads to. -/
def atPath : Forest → List Str → Option Forest
  | f, [] => some f
  | f, key :: path => (f.get key).bind (fun n => atPath n.2 path)

theorem atPath_cons (f : Forest) (key : Str) (path : List Str) :
    f.atPath (key :: path) = (f.get key).bind (fun n => n.2.atPath path) := rfl

theorem changeAt_cons (change : Forest → Forest) (key : Str) (path : List Str) (f : Forest) :
    f.changeAt change (key :: path) = match f.get key with
      | none => f
      | some (line, children) => f.set key line (changeAt change path children) := rfl

theorem atPath_append (f : Forest) (p q : List Str) : f.atPath (p ++ q) = (f.atPath p).bind (fun g => g.atPath q) := by
  induction p generalizing f with
  | nil => rfl
  | cons key p ih =>
    simp only [List.cons_append, atPath_cons, ih]
    cases f.get key <;> rfl

theorem changeAt_append (change : Forest → Forest) (p q : List Str) (f : Forest) :
    changeAt change (p ++ q) f = changeAt (changeAt change q) p f := by
  induction p generalizing f with
  | nil => rfl
  | cons key p ih =>
    simp only [List.cons_append, changeAt_cons]
    cases f.get key with
    | none => rfl
    | some n => simp only [ih]

theorem set_set (f : Forest) (key line line' : Str) (c c' : Forest) :
    (f.set key line c).set key line' c' = f.set key line' c' := by
  simp [set, Dict.set_set]

/-- Only the scope at the path matters. -/
theorem changeAt_congr (change change' : Forest → Forest) (p : List Str) (f g : Forest) (h : f.atPath p = some g)
    (hg : change g = change' g) : changeAt change p f = changeAt change' p f := by
  induction p generalizing f with
  | nil =>
    cases h
    exact hg
  | cons key p ih =>
    simp only [atPath_cons, Option.bind_eq_some_iff] at h
    obtain ⟨n, hn, hp⟩ := h
    simp only [changeAt_cons, hn, ih n.2 hp]

theorem atPath_changeAt (change : Forest → Forest) (p : List Str) (f g : Forest) (h : f.atPath p = some g) :
    (changeAt change p f).atPath p = some (change g) := by
  induction p generalizing f with
  | nil =>
    cases h
    rfl
  | cons key p ih =>
    simp only [atPath_cons, Option.bind_eq_some_iff] at h
    obtain ⟨n, hn, hp⟩ := h
    simp only [changeAt_cons, hn, atPath_cons, get_set, if_true, Option.bind_some]
    exact ih n.2 hp

theorem changeAt_changeAt (change change' : Forest → Forest) (p : List Str) (f : Forest) :
    changeAt change' p (changeAt change p f) = changeAt (fun g => change' (change g)) p f := by
  induction p generalizing f with
  | nil => rfl
  | cons key p ih =>
    simp only [changeAt_cons]
    cases hn : f.get key with
    | none => simp only [hn]
    | some n => simp only [get_set, if_true, ih, set_set]

theorem changeAt_self (p : List Str) (f g : Forest) (h : f.atPath p = some g) : changeAt (fun _ => g) p f = f := by
  induction p generalizing f with
  | nil =>
    cases h
    rfl
  | cons key p ih =>
    simp only [atPath_cons, Option.bind_eq_some_iff] at h
    obtain ⟨n, hn, hp⟩ := h
    simp only [changeAt_cons, hn, ih n.2 hp]
    simp only [set, Dict.set_self f.entries key n hn, ofEntries_entries]

/-- Distinct keys in every scope, and every entry as `P` wants it. -/
def Every (P : Str → Str → Forest → Prop) : Forest → Prop
  | nil => True
  | cons key line children rest => key ∉ rest.keys ∧ P key line children ∧ Every P children ∧ Every P rest

section Every

variable {P : Str → Str → Forest → Prop} {f g : Forest} {key line : Str} {children : Forest}

theorem Every.nodup (h : f.Every P) : f.keys.Nodup := by
  induction f with
  | nil => simp
  | cons key line children rest _ ih => exact List.nodup_cons.mpr ⟨h.1, ih h.2.2.2⟩

theorem Every.entry (h : f.Every P) (hm : (key, line, children) ∈ f.entries) :
    P key line children ∧ children.Every P := by
  induction f with
  | nil => simp at hm
  | cons k l c rest _ ih =>
    rcases List.mem_cons.mp hm with he | hm
    · cases he
      exact ⟨h.2.1, h.2.2.1⟩
    · exact ih h.2.2.2 hm

theorem every_iff : f.Every P ↔ f.keys.Nodup ∧ ∀ e ∈ f.entries, P e.1 e.2.1 e.2.2 ∧ e.2.2.Every P := by
  constructor
  · exact fun h => ⟨h.nodup, fun e he => h.entry he⟩
  · induction f with
    | nil => simp [Every]
    | cons key line children rest _ ih =>
      rintro ⟨hn, he⟩
      have hh := he (key, line, children) (by simp)
      simp only [keys_cons, List.nodup_cons] at hn
      exact ⟨hn.1, hh.1, hh.2, ih ⟨hn.2, fun e hm => he e (by simp [hm])⟩⟩

theorem Every.get (h : f.Every P) (hg : f.get key = some (line, children)) : P key line children ∧ children.Every P :=
  h.entry ((get_eq_some f h.nodup key line children).mp hg)

theorem Every.set (h : f.Every P) (hp : P key line children) (hc : children.Every P) :
    (f.set key line children).Every P := by
  rw [every_iff]
  refine ⟨nodup_set f key line children h.nodup, ?_⟩
  intro e he
  simp only [Forest.set, entries_ofEntries] at he
  rcases Dict.mem_set f.entries key (line, children) e he with he | he
  · subst he
    exact ⟨hp, hc⟩
  · exact h.entry he

theorem Every.erase (h : f.Every P) (key : Str) : (f.erase key).Every P := by
  rw [every_iff]
  constructor
  · rw [keys_erase]
    exact h.nodup.filter _
  · intro e he
    simp only [Forest.erase, entries_ofEntries, List.mem_filter] at he
    exact h.entry he.1

theorem Every.perm (h : f.Every P) (hp : g.entries.Perm f.entries) : g.Every P := by
  rw [every_iff]
  constructor
  · exact (hp.map Prod.fst).nodup_iff.mpr h.nodup
  · exact fun e he => h.entry (hp.mem_iff.mp he)

theorem Every.child (h : f.Every P) (hnew : P key line nil) : (f.child key line).Every P := by
  unfold Forest.child
  split
  · exact h
  · exact h.set hnew trivial

/-- A change in one scope, where `P` does not look at the children. -/
theorem Every.changeAt {change : Forest → Forest} (hP : ∀ k l c c', P k l c → P k l c')
    (hchange : ∀ g : Forest, g.Every P → (change g).Every P) (path : List Str) (h : f.Every P) :
    (f.changeAt change path).Every P := by
  induction path generalizing f with
  | nil => exact hchange f h
  | cons key path ih =>
    simp only [changeAt_cons]
    cases hg : f.get key with
    | none => exact h
    | some n =>
      obtain ⟨line, c⟩ := n
      obtain ⟨hentry, hc⟩ := h.get hg
      exact h.set (hP key line c _ hentry) (ih hc)

end Every

end Forest

end ConfigTree
