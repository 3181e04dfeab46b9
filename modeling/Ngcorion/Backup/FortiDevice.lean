import Ngcorion.Backup.FortiOS

/-!
# The FortiOS command line

A device is its configuration tree with the scopes that are open. `config` and
`edit` lines enter a scope and create it when it is missing, `end` and `next`
leave it, `set`, `unset`, `delete` and `move` change the scope that is open.
A command the device cannot carry out stops the run: closing a scope of the
other kind, deleting or moving an entry that does not exist.
-/
namespace FortiDevice

open Text ConfigTree FortiOS

/-- Where a word of the command line stands: quotes group, a backslash takes
the next character literally. -/
inductive Mode where
  | bare | quoted | bareEscape | quotedEscape
  deriving DecidableEq

def Mode.next : Mode → Char → Mode
  | .bare, c => if c = '"' then .quoted else if c = '\\' then .bareEscape else .bare
  | .quoted, c => if c = '"' then .bare else if c = '\\' then .quotedEscape else .quoted
  | .bareEscape, _ => .bare
  | .quotedEscape, _ => .quoted

/-- Cut off the first word of a command line. -/
def takeWord : Mode → Str → Str × Str
  | _, [] => ([], [])
  | m, c :: s =>
    if m = .bare ∧ c = ' ' then ([], c :: s)
    else (c :: (takeWord (m.next c) s).1, (takeWord (m.next c) s).2)

def startsWord : Str → Bool
  | [] => false
  | c :: _ => !isSpace c

def oneWord (name : Str) : Bool :=
  startsWord name && takeWord .bare name = (name, []) && name.foldl Mode.next .bare = .bare

def isKey (key : Str) : Bool := key ≠ [] && key.all (fun c => !isSpace c)

inductive Command where
  | config (words : Str)
  | edit (name : Str)
  | set (key value : Str)
  | leaveConfig
  | leaveEdit
  | unset (key : Str)
  | delete (name : Str)
  | move (name before : Str)
  deriving DecidableEq

def cut (s : Str) : Str × Str := (s.takeWhile (· ≠ ' '), (s.dropWhile (· ≠ ' ')).drop 1)

def readMove (s : Str) : Option Command :=
  let (name, tail) := takeWord .bare s
  let before := tail.drop (lit " before ").length
  if startsWith (lit " before ") tail && oneWord name && oneWord before then some (.move name before) else none

def readCommand (s : Str) : Option Command :=
  let (first, rest) := cut s
  if first = lit "config" then if startsWord rest then some (.config rest) else none
  else if first = lit "edit" then if oneWord rest then some (.edit rest) else none
  else if first = lit "set" then
    if isKey (cut rest).1 && startsWord (cut rest).2 then some (.set (cut rest).1 (cut rest).2) else none
  else if s = lit "end" then some .leaveConfig
  else if s = lit "next" then some .leaveEdit
  else if first = lit "unset" then if isKey rest then some (.unset rest) else none
  else if first = lit "delete" then if oneWord rest then some (.delete rest) else none
  else if first = lit "move" then readMove rest
  else none

structure Device where
  scope : Forest
  outer : List (Str × Forest)

/-- Open the scope of a line; the outer scope already lists it. -/
def enter (line : Str) (d : Device) : Device :=
  let scope := d.scope.child line line
  ⟨((scope.get line).map Prod.snd).getD .nil, (line, scope) :: d.outer⟩

def leave (opener : Str) (d : Device) : Option Device :=
  match d.outer with
  | [] => none
  | (line, scope) :: outer =>
    if startsWith opener line then some ⟨scope.set line line d.scope, outer⟩ else none

def insertBefore {α : Type} (stop : α → Bool) (e : α) : List α → List α
  | [] => [e]
  | x :: xs => if stop x then e :: x :: xs else x :: insertBefore stop e xs

theorem insertBefore_nil {α : Type} (stop : α → Bool) (e : α) : insertBefore stop e [] = [e] := rfl

theorem insertBefore_cons {α : Type} (stop : α → Bool) (e x : α) (xs : List α) :
    insertBefore stop e (x :: xs) = if stop x then e :: x :: xs else x :: insertBefore stop e xs := rfl

/-- Reorder the entries of a table: take one out and put it in front of another. -/
def moveBefore (f : Forest) (key mark : Str) : Forest :=
  match f.get key with
  | none => f
  | some v => .ofEntries (insertBefore (fun e => e.1 = mark) (key, v) (f.entries.filter (fun e => e.1 ≠ key)))

def exec (s : Str) (d : Device) : Option Device :=
  match readCommand s with
  | some (.config _) => some (enter s d)
  | some (.edit _) => some (enter s d)
  | some (.set key _) => some { d with scope := d.scope.set (lit "set " ++ key) s .nil }
  | some .leaveConfig => leave (lit "config ") d
  | some .leaveEdit => leave (lit "edit ") d
  | some (.unset key) => some { d with scope := d.scope.erase (lit "set " ++ key) }
  | some (.delete name) =>
    if lit "edit " ++ name ∈ d.scope.keys then some { d with scope := d.scope.erase (lit "edit " ++ name) } else none
  | some (.move name before) =>
    if lit "edit " ++ name ∈ d.scope.keys ∧ lit "edit " ++ before ∈ d.scope.keys then
      some { d with scope := moveBefore d.scope (lit "edit " ++ name) (lit "edit " ++ before) } else none
  | none => none

def execAll : List Str → Device → Option Device
  | [], d => some d
  | s :: cmds, d => (exec s d).bind (execAll cmds)

theorem execAll_append (a b : List Str) (d : Device) :
    execAll (a ++ b) d = (execAll a d).bind (execAll b) := by
  induction a generalizing d with
  | nil => rfl
  | cons s a ih =>
    simp only [List.cons_append, execAll]
    cases exec s d with
    | none => rfl
    | some e => simpa using ih e

/-! ## Reading the lines the comparison writes -/

theorem cut_append (first rest : Str) (h : ∀ c ∈ first, c ≠ ' ') : cut (first ++ ' ' :: rest) = (first, rest) := by
  have hp : ∀ c ∈ first, (decide (c ≠ ' ')) = true := by simpa using h
  simp only [cut, List.takeWhile_append_of_pos hp, List.dropWhile_append_of_pos hp]
  simp

/-- A verb with its blank is a first word. -/
theorem append_verb (s word rest : Str) (h : s = word ++ [' ']) : s ++ rest = word ++ ' ' :: rest := by
  rw [h, List.append_assoc]; rfl

theorem cut_verb (s word rest : Str) (h : s = word ++ [' ']) (hw : ∀ c ∈ word, c ≠ ' ') :
    cut (s ++ rest) = (word, rest) := by
  rw [append_verb s word rest h, cut_append _ _ hw]

theorem cut_config (w : Str) : cut (lit "config " ++ w) = (lit "config", w) :=
  cut_verb _ _ w (by with_unfolding_all decide) (forall_mem_of_all (by with_unfolding_all decide))
theorem cut_edit (n : Str) : cut (lit "edit " ++ n) = (lit "edit", n) :=
  cut_verb _ _ n (by with_unfolding_all decide) (forall_mem_of_all (by with_unfolding_all decide))
theorem cut_set (k : Str) : cut (lit "set " ++ k) = (lit "set", k) :=
  cut_verb _ _ k (by with_unfolding_all decide) (forall_mem_of_all (by with_unfolding_all decide))

theorem not_space_of_isKey (k : Str) (hk : isKey k = true) : ∀ c ∈ k, c ≠ ' ' := by
  simp only [isKey, Bool.and_eq_true, List.all_eq_true, Bool.not_eq_true'] at hk
  rintro c hc rfl
  exact absurd (hk.2 ' ' hc) (by decide)

theorem read_config (w : Str) (hw : startsWord w = true) :
    readCommand (lit "config " ++ w) = some (.config w) := by
  simp only [readCommand, cut_config, hw, if_true]

theorem read_edit (n : Str) (hn : oneWord n = true) : readCommand (lit "edit " ++ n) = some (.edit n) := by
  have h : lit "edit" ≠ lit "config" := by with_unfolding_all decide
  simp only [readCommand, cut_edit, h, hn, if_true, if_false]

theorem read_set (k v : Str) (hk : isKey k = true) (hv : startsWord v = true) :
    readCommand (lit "set " ++ (k ++ ' ' :: v)) = some (.set k v) := by
  have h₁ : lit "set" ≠ lit "config" := by with_unfolding_all decide
  have h₂ : lit "set" ≠ lit "edit" := by with_unfolding_all decide
  simp only [readCommand, cut_set, cut_append k v (not_space_of_isKey k hk), h₁, h₂, hk, hv,
    if_true, if_false, Bool.and_self]

theorem read_unset (k : Str) (hk : isKey k = true) : readCommand (lit "unset " ++ k) = some (.unset k) := by
  have hc := cut_verb (lit "unset ") (lit "unset") k (by with_unfolding_all decide) (forall_mem_of_all
    (by with_unfolding_all decide))
  have he : lit "unset " ++ k ≠ lit "end" := by simp [lit]
  have hn : lit "unset " ++ k ≠ lit "next" := by simp [lit]
  have hv : lit "unset" ≠ lit "config" ∧ lit "unset" ≠ lit "edit" ∧ lit "unset" ≠ lit "set" := by
    with_unfolding_all decide
  simp only [readCommand, hc, he, hn, hv.1, hv.2.1, hv.2.2, hk, if_true, if_false]

theorem read_delete (n : Str) (hn : oneWord n = true) :
    readCommand (lit "delete " ++ n) = some (.delete n) := by
  have hc := cut_verb (lit "delete ") (lit "delete") n (by with_unfolding_all decide) (forall_mem_of_all
    (by with_unfolding_all decide))
  have he : lit "delete " ++ n ≠ lit "end" := by simp [lit]
  have hx : lit "delete " ++ n ≠ lit "next" := by simp [lit]
  have hv : lit "delete" ≠ lit "config" ∧ lit "delete" ≠ lit "edit" ∧ lit "delete" ≠ lit "set" ∧
      lit "delete" ≠ lit "unset" := by with_unfolding_all decide
  simp only [readCommand, hc, he, hx, hv.1, hv.2.1, hv.2.2.1, hv.2.2.2, hn, if_true, if_false]

theorem takeWord_append (m : Mode) (word rest : Str) (h : takeWord m word = (word, []))
    (hm : word.foldl Mode.next m = .bare) : takeWord m (word ++ ' ' :: rest) = (word, ' ' :: rest) := by
  induction word generalizing m with
  | nil =>
    simp only [List.foldl_nil] at hm
    simp [takeWord, hm]
  | cons c word ih =>
    have hc : ¬ (m = .bare ∧ c = ' ') := by
      intro hc
      simp [takeWord, hc] at h
    simp only [takeWord, hc, if_false, Prod.mk.injEq, List.cons.injEq, true_and] at h
    have hi := ih (m.next c) (Prod.ext h.1 h.2) hm
    simp [takeWord, hc, hi]

/-- Names are single words, so a `move` line names exactly two of them. -/
theorem read_move (a b : Str) (ha : oneWord a = true) (hb : oneWord b = true) :
    readCommand (moveCommand a b) = some (.move a b) := by
  have hline : moveCommand a b = lit "move " ++ (a ++ lit " before " ++ b) := by
    simp [moveCommand, List.append_assoc]
  have hc := cut_verb (lit "move ") (lit "move") (a ++ lit " before " ++ b) (by with_unfolding_all decide)
    (forall_mem_of_all (by with_unfolding_all decide))
  have he : lit "move " ++ (a ++ lit " before " ++ b) ≠ lit "end" := by simp [lit]
  have hx : lit "move " ++ (a ++ lit " before " ++ b) ≠ lit "next" := by simp [lit]
  have hv : lit "move" ≠ lit "config" ∧ lit "move" ≠ lit "edit" ∧ lit "move" ≠ lit "set" ∧
      lit "move" ≠ lit "unset" ∧ lit "move" ≠ lit "delete" := by with_unfolding_all decide
  have hw := ha
  simp only [oneWord, Bool.and_eq_true, decide_eq_true_eq] at hw
  have htake : takeWord .bare (a ++ lit " before " ++ b) = (a, lit " before " ++ b) := by
    have hb : lit " before " ++ b = ' ' :: (lit "before " ++ b) := by simp [lit]
    rw [List.append_assoc, hb]
    exact takeWord_append .bare a _ hw.1.2 hw.2
  have hread : readMove (a ++ lit " before " ++ b) = some (.move a b) := by
    simp only [readMove, htake]
    simp [ha, hb]
  rw [hline]
  simp only [readCommand, hc, he, hx, hv.1, hv.2.1, hv.2.2.1, hv.2.2.2.1, hv.2.2.2.2, hread, if_true, if_false]

/-! ## Runs inside one scope -/

/-- A command list that changes the open scope and leaves every other as it is. -/
def Runs (cmds : List Str) (f g : Forest) : Prop :=
  ∀ outer, execAll cmds ⟨f, outer⟩ = some ⟨g, outer⟩

theorem Runs.nil (f : Forest) : Runs [] f f := fun _ => rfl

theorem Runs.append {a b : List Str} {f g h : Forest} (hfg : Runs a f g) (hgh : Runs b g h) :
    Runs (a ++ b) f h := by
  intro outer
  rw [execAll_append, hfg outer]
  exact hgh outer

theorem Runs.cons {s : Str} {cmds : List Str} {f g h : Forest} (hs : Runs [s] f g) (hc : Runs cmds g h) :
    Runs (s :: cmds) f h := Runs.append hs hc

theorem runs_set (k v : Str) (hk : isKey k = true) (hv : startsWord v = true) (f : Forest) :
    Runs [lit "set " ++ (k ++ ' ' :: v)] f (f.set (lit "set " ++ k) (lit "set " ++ (k ++ ' ' :: v)) .nil) := by
  intro outer
  simp [execAll, exec, read_set k v hk hv]

theorem runs_unset (k : Str) (hk : isKey k = true) (f : Forest) :
    Runs [lit "unset " ++ k] f (f.erase (lit "set " ++ k)) := by
  intro outer
  simp [execAll, exec, read_unset k hk]

theorem runs_delete (n : Str) (hn : oneWord n = true) (f : Forest) (h : lit "edit " ++ n ∈ f.keys) :
    Runs [lit "delete " ++ n] f (f.erase (lit "edit " ++ n)) := by
  intro outer
  simp [execAll, exec, read_delete n hn, h]

theorem runs_move (a b : Str) (ha : oneWord a = true) (hb : oneWord b = true) (f : Forest)
    (hka : lit "edit " ++ a ∈ f.keys) (hkb : lit "edit " ++ b ∈ f.keys) :
    Runs [moveCommand a b] f (moveBefore f (lit "edit " ++ a) (lit "edit " ++ b)) := by
  intro outer
  simp [execAll, exec, read_move a b ha hb, hka, hkb]

/-- The children of a line in a scope; a line that is missing has none. -/
def sub (f : Forest) (line : Str) : Forest := ((f.get line).map Prod.snd).getD .nil

theorem enter_eq (line : Str) (f : Forest) (outer : List (Str × Forest)) :
    enter line ⟨f, outer⟩ = ⟨sub f line, (line, f.child line line) :: outer⟩ := by
  simp only [enter, sub, Forest.child]
  by_cases h : line ∈ f.keys
  · simp [h]
  · simp [h, Forest.get_set, (Forest.get_eq_none f line).mpr h]

theorem child_set (f : Forest) (line : Str) (children : Forest) :
    (f.child line line).set line line children = f.set line line children := by
  unfold Forest.child
  split
  · rfl
  · simp [Forest.set, Dict.set_set]

/-- Entering a scope, changing it and leaving it sets the children of its line. -/
theorem runs_scope (line opener last : Str) (inner : List Str) (f g : Forest)
    (hopen : ∀ d, exec line d = some (enter line d)) (hclose : ∀ d, exec last d = leave opener d)
    (hline : startsWith opener line = true) (h : Runs inner (sub f line) g) :
    Runs (line :: (inner ++ [last])) f (f.set line line g) := by
  intro outer
  have hi := h ((line, f.child line line) :: outer)
  simp only [execAll, hopen, Option.bind_some, enter_eq, execAll_append, hi]
  simp [hclose, leave, hline, child_set]

theorem runs_config (w : Str) (hw : startsWord w = true) (inner : List Str) (f g : Forest)
    (h : Runs inner (sub f (lit "config " ++ w)) g) :
    Runs ((lit "config " ++ w) :: (inner ++ [lit "end"])) f
      (f.set (lit "config " ++ w) (lit "config " ++ w) g) := by
  have hend : readCommand (lit "end") = some .leaveConfig := by with_unfolding_all decide
  exact runs_scope _ (lit "config ") _ inner f g (fun d => by simp [exec, read_config w hw])
    (fun d => by simp [exec, hend]) (startsWith_append _ _) h

theorem runs_edit (n : Str) (hn : oneWord n = true) (inner : List Str) (f g : Forest)
    (h : Runs inner (sub f (lit "edit " ++ n)) g) :
    Runs ((lit "edit " ++ n) :: (inner ++ [lit "next"])) f (f.set (lit "edit " ++ n) (lit "edit " ++ n) g) := by
  have hnext : readCommand (lit "next") = some .leaveEdit := by with_unfolding_all decide
  exact runs_scope _ (lit "edit ") _ inner f g (fun d => by simp [exec, read_edit n hn])
    (fun d => by simp [exec, hnext]) (startsWith_append _ _) h

end FortiDevice
