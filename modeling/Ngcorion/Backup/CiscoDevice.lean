import Ngcorion.Backup.CiscoIOS

/-!
# The IOS command line

A device is its configuration tree with the path of sub-modes that are open. A
line enters its sub-mode when it has one and is added when it is missing, in the
place of the lines it displaces: its own negation, and the live value of a
setting that holds one value. `no` removes a line with its sub-mode, and `exit`
leaves a sub-mode.
-/
namespace CiscoDevice

open Text ConfigTree CiscoIOS

/-- The identity of a setting that holds one value on the device. -/
def singleSetting (u : Unicode) (line : Str) : Option Str :=
  let id := _setting_id u line
  if id ≠ [] ∧ (id ∈ singleValueHeads ∨ (words id).head? = some (lit "username")) then some id else none

def sameSetting (u : Unicode) (a b : Str) : Bool :=
  (singleSetting u a).isSome && singleSetting u a = singleSetting u b

/-- The lines that give way when `line` is added. -/
def displaces (u : Unicode) (line other : Str) : Bool := other = noCommand line || sameSetting u line other

/-- Add a line in the place of the first line that gives way. -/
def place (gives : Str → Bool) (line : Str) : List (Str × Str × Forest) → List (Str × Str × Forest)
  | [] => [(line, line, .nil)]
  | e :: es =>
    if gives e.1 then (line, line, .nil) :: es.filter (fun e => !gives e.1) else e :: place gives line es

def addLine (u : Unicode) (line : Str) (f : Forest) : Forest :=
  if line ∈ f.keys then f else .ofEntries (place (displaces u line) line f.entries)

structure Device where
  root : Forest
  path : List Str

section
variable (u : Unicode) (opens : List Str → Bool)

/-- One command; the blanks in front of it are for the reader. -/
def exec (cmd : Str) (d : Device) : Device :=
  let line := cmd.dropWhile (· = ' ')
  if line = lit "exit" then ⟨d.root, d.path.dropLast⟩
  else if isNegative u line then ⟨d.root.changeAt (fun f => f.erase (line.drop 3)) d.path, d.path⟩
  else ⟨d.root.changeAt (addLine u line) d.path, if opens (d.path ++ [line]) then d.path ++ [line] else d.path⟩

def execAll (cmds : List Str) (d : Device) : Device := cmds.foldl (fun d cmd => exec u opens cmd d) d

theorem execAll_append (a b : List Str) (d : Device) :
    execAll u opens (a ++ b) d = execAll u opens b (execAll u opens a d) := by
  simp [execAll, List.foldl_append]

/-- A command list that changes the scope at a path from `f` to `g`, nothing
else, and ends where it began. -/
def Runs (path : List Str) (cmds : List Str) (f g : Forest) : Prop :=
  ∀ root : Forest, root.atPath path = some f →
    execAll u opens cmds ⟨root, path⟩ = ⟨root.changeAt (fun _ => g) path, path⟩

end

/-! ## Adding a line -/

theorem get_place (gives : Str → Bool) (line : Str) (es : List (Str × Str × Forest)) (h : line ∉ Dict.keys es)
    (key : Str) : Dict.get (place gives line es) key =
      if key = line then some (line, .nil) else if gives key then none else Dict.get es key := by
  have hfilter : ∀ es : List (Str × Str × Forest), Dict.get (es.filter (fun e => !gives e.1)) key =
      if gives key then none else Dict.get es key := by
    intro es
    induction es with
    | nil => simp [Dict.get]
    | cons e es ih =>
      obtain ⟨k, v⟩ := e
      by_cases hk : k = key
      · subst hk
        by_cases hg : gives k = true
        · simpa [hg] using ih
        · simp [hg, Dict.get]
      · by_cases hg : gives k = true <;> simp [hg, hk, Dict.get, ih]
  induction es with
  | nil =>
    by_cases hk : key = line
    · simp [place, Dict.get, hk]
    · simp [place, Dict.get, hk, Ne.symm hk]
  | cons e es ih =>
    obtain ⟨k, v⟩ := e
    simp only [Dict.keys, List.map_cons, List.mem_cons, not_or] at h
    have hi := ih h.2
    by_cases hg : gives k = true
    · by_cases hk : key = line
      · simp [place, hg, Dict.get, hk]
      · have hne : line ≠ key := Ne.symm hk
        by_cases hkk : k = key
        · subst hkk
          simp [place, hg, Dict.get, hk, hne, hfilter]
        · simp [place, hg, Dict.get, hk, hne, hfilter, hkk]
    · by_cases hkk : k = key
      · subst hkk
        simp [place, hg, Dict.get, Ne.symm h.1]
      · simp [place, hg, Dict.get, hkk, hi]

theorem get_addLine (u : Unicode) (line : Str) (f : Forest) (h : line ∉ f.keys) (key : Str) :
    (addLine u line f).get key =
      if key = line then some (line, .nil) else if displaces u line key then none else f.get key := by
  rw [addLine, if_neg h, Forest.get, Forest.entries_ofEntries]
  exact get_place _ _ _ h key

theorem addLine_of_mem (u : Unicode) (line : Str) (f : Forest) (h : line ∈ f.keys) : addLine u line f = f := by
  rw [addLine, if_pos h]

/-! ## Runs inside one scope -/

/-- The lines that are commands of another kind. -/
def inert (u : Unicode) (line : Str) : Bool := line = lit "exit" || isNegative u line

def indented (depth : Nat) (line : Str) : Str := List.replicate depth ' ' ++ line

section
variable {u : Unicode} {opens : List Str → Bool} {path : List Str}

theorem Runs.nil (f : Forest) : Runs u opens path [] f f := by
  intro root h
  simp [execAll, Forest.changeAt_self path root f h]

theorem Runs.append {a b : List Str} {f g k : Forest} (ha : Runs u opens path a f g) (hb : Runs u opens path b g k) :
    Runs u opens path (a ++ b) f k := by
  intro root h
  rw [execAll_append, ha root h, hb _ (Forest.atPath_changeAt _ path root f h), Forest.changeAt_changeAt]

theorem dropWhile_indented (depth : Nat) (line : Str) (h : line.head? ≠ some ' ') :
    (indented depth line).dropWhile (· = ' ') = line := by
  rw [indented, List.dropWhile_append_of_pos (by simp)]
  cases line with
  | nil => rfl
  | cons c line =>
    have hc : c ≠ ' ' := by simpa using h
    simp [hc]

theorem exec_line (depth : Nat) (line : Str) (h : line.head? ≠ some ' ') (hi : inert u line = false) (d : Device) :
    exec u opens (indented depth line) d = ⟨d.root.changeAt (addLine u line) d.path,
      if opens (d.path ++ [line]) then d.path ++ [line] else d.path⟩ := by
  simp only [inert, Bool.or_eq_false_iff, decide_eq_false_iff_not] at hi
  simp [exec, dropWhile_indented depth line h, hi.1, hi.2]

/-- A line without a sub-mode. -/
theorem runs_line (depth : Nat) (line : Str) (h : line.head? ≠ some ' ') (hi : inert u line = false)
    (ho : opens (path ++ [line]) = false) (f : Forest) :
    Runs u opens path [indented depth line] f (addLine u line f) := by
  intro root hr
  simp only [execAll, List.foldl_cons, List.foldl_nil, exec_line depth line h hi, ho, Bool.false_eq_true, if_false]
  rw [Forest.changeAt_congr (addLine u line) (fun _ => addLine u line f) path root f hr rfl]

theorem isNegative_no (u : Unicode) (line : Str) : isNegative u (noCommand line) = true := by
  have h := u.lower_ascii (lit "no ") line (forall_mem_of_all (by with_unfolding_all decide))
  have hlow : (lit "no ").map Char.toLower = lit "no " := by with_unfolding_all decide
  rwa [hlow] at h

/-- `no` with a line removes that line. -/
theorem runs_no (line : Str) (f : Forest) : Runs u opens path [noCommand line] f (f.erase line) := by
  intro root hr
  have hdrop : (noCommand line).dropWhile (· = ' ') = noCommand line := by simp [noCommand, lit]
  have hexit : noCommand line ≠ lit "exit" := by simp [noCommand, lit]
  have htail : (noCommand line).drop 3 = line := by simp [noCommand, lit]
  simp only [execAll, List.foldl_cons, List.foldl_nil, exec, hdrop, hexit, if_false, isNegative_no, if_true, htail]
  rw [Forest.changeAt_congr (fun g => g.erase line) (fun _ => f.erase line) path root f hr rfl]

/-- Entering a sub-mode, changing it and leaving it sets the children of its line. -/
theorem runs_mode (depth : Nat) (line : Str) (h : line.head? ≠ some ' ') (hi : inert u line = false)
    (ho : opens (path ++ [line]) = true) (inner : List Str) (f c g : Forest)
    (hget : (addLine u line f).get line = some (line, c)) (hrun : Runs u opens (path ++ [line]) inner c g) :
    Runs u opens path (indented depth line :: (inner ++ [indented depth (lit "exit")])) f
      ((addLine u line f).set line line g) := by
  intro root hr
  have hat : (root.changeAt (addLine u line) path).atPath (path ++ [line]) = some c := by
    rw [Forest.atPath_append, Forest.atPath_changeAt _ path root f hr]
    simp [Forest.atPath, hget]
  have hexit : ∀ d, exec u opens (indented depth (lit "exit")) d = ⟨d.root, d.path.dropLast⟩ := by
    intro d
    have hd := dropWhile_indented depth (lit "exit") (by with_unfolding_all decide)
    simp [exec, hd]
  have hopen : execAll u opens (indented depth line :: (inner ++ [indented depth (lit "exit")])) ⟨root, path⟩ =
      exec u opens (indented depth (lit "exit"))
        (execAll u opens inner ⟨root.changeAt (addLine u line) path, path ++ [line]⟩) := by
    simp only [execAll, List.foldl_cons, List.foldl_append, List.foldl_nil, exec_line depth line h hi, ho, if_true]
  rw [hopen, hrun _ hat, hexit, Forest.changeAt_append, Forest.changeAt_changeAt]
  simp only [List.dropLast_concat, Device.mk.injEq, and_true]
  rw [Forest.changeAt_congr _ (fun _ => (addLine u line f).set line line g) path root f hr]
  simp [Forest.changeAt, hget]

end

end CiscoDevice
