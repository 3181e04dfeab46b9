import Ngcorion.Text
import Ngcorion.Dict
import Mathlib.Data.List.Sort

/-!
# Committing nginx edits

An edit session records line operations on the files nginx reads. `commit`
applies them bottom-up, copies the files to a backup directory, writes the new
texts one after the other and lets nginx test them. When a write or the test
fails, the files written so far get their original text again.

The copies in the backup directory are not among the files of the model: nginx
does not read them.
-/
namespace Commit

open Text

/-! ## The recorded operations -/

inductive Kind where
  | replace | after | before
  deriving DecidableEq

/-- One operation on a line; lines count from one. -/
structure Op where
  line : Nat
  order : Nat
  kind : Kind
  payload : List Str
  line_pos : 0 < line
  deriving DecidableEq

def applyOp (ls : List Str) (op : Op) : List Str :=
  match op.kind with
  | .replace => ls.take (op.line - 1) ++ op.payload ++ ls.drop op.line
  | .after => ls.take op.line ++ op.payload ++ ls.drop op.line
  | .before => ls.take (op.line - 1) ++ op.payload ++ ls.drop (op.line - 1)

/-- From the last line to the first; on one line by increasing order. -/
def later (a b : Op) : Prop := b.line < a.line ∨ a.line = b.line ∧ a.order ≤ b.order

instance (a b : Op) : Decidable (later a b) := inferInstanceAs (Decidable (_ ∨ _))

/-- The new text of a file; an operation recorded twice is applied once. -/
def newText (original : Str) (ops : List Op) : Str :=
  unlines ((ops.eraseDups.insertionSort later).foldl applyOp (lines original))

/-- What the editor holds when it commits: the texts it read, and the operations
it recorded on some of those files. -/
structure Session where
  original : List (Str × Str)
  ops : List (Str × List Op)
  nodup : (Dict.keys ops).Nodup
  known : ∀ path ∈ Dict.keys ops, path ∈ Dict.keys original

def Session.text (s : Session) (path : Str) : Str := (Dict.get s.original path).getD []

/-- The files that change, with their new texts, in the order they are written. -/
def Session.new (s : Session) : List (Str × Str) := s.ops.map (fun o => (o.1, newText (s.text o.1) o.2))

theorem Session.keys_new (s : Session) : Dict.keys s.new = Dict.keys s.ops := by
  simp [Session.new, Dict.keys, Function.comp_def]

/-! ## Writing a file -/

def fileMark : Str := lit "----- ngcorion file content -----"

/-- The records `awk` reads: a final newline opens no further record. -/
def recordsFrom (line : Str) : Str → List Str
  | [] => if line = [] then [] else [line]
  | c :: rest => if c = '\n' then line :: recordsFrom [] rest else recordsFrom (line ++ [c]) rest

def records (s : Str) : List Str := recordsFrom [] s

/-- The program of `stdin_write_script`: print every line after the mark. -/
def awkOutput (data : Str) : Str :=
  (((records data).dropWhile (· ≠ fileMark)).drop 1).flatMap (fun l => l ++ ['\n'])

/-- The line in front of the mark: a sudo password that sudo did not ask for. -/
structure Login where
  password : Option Str
  one_line : ∀ pw, password = some pw → '\n' ∉ pw
  not_mark : ∀ pw, password = some pw → pw ≠ fileMark

def Login.data (login : Login) (content : Str) : Str :=
  (login.password.map (fun pw => pw ++ ['\n'])).getD [] ++ (fileMark ++ '\n' :: content)

/-- What a file holds once a write to it has succeeded. -/
def stdinWrite (login : Login) (content : Str) : Str := awkOutput (login.data content)

/-- Empty, or with a newline at the end. -/
def Terminated (content : Str) : Prop := content = [] ∨ content.getLast? = some '\n'

instance (content : Str) : Decidable (Terminated content) := inferInstanceAs (Decidable (_ ∨ _))

def terminate (content : Str) : Str := if Terminated content then content else content ++ ['\n']

theorem terminate_eq_self (content : Str) : terminate content = content ↔ Terminated content := by
  unfold terminate
  by_cases h : Terminated content <;> simp [h]

theorem terminate_append (a rest : Str) : terminate (a ++ '\n' :: rest) = a ++ '\n' :: terminate rest := by
  have hiff : Terminated (a ++ '\n' :: rest) ↔ Terminated rest := by
    cases rest with
    | nil => simp [Terminated]
    | cons c t => simp [Terminated, List.getLast?_append, List.getLast?_cons]
  unfold terminate
  by_cases h : Terminated rest <;> simp [hiff, h]

/-- Printing the records of a text gives the text back, its last line ended. -/
theorem recordsFrom_print (s line : Str) (hline : '\n' ∉ line) :
    (recordsFrom line s).flatMap (fun l => l ++ ['\n']) = terminate (line ++ s) := by
  induction s generalizing line with
  | nil =>
    by_cases h : line = []
    · simp [recordsFrom, h, terminate, Terminated]
    · have hlast : ¬ Terminated line := by
        rintro (hn | hl)
        · exact h hn
        · exact hline (List.mem_of_getLast? hl)
      simp [recordsFrom, h, terminate, hlast]
  | cons c rest ih =>
    by_cases hc : c = '\n'
    · simp only [recordsFrom, hc, if_true, List.flatMap_cons, ih [] (by simp), List.nil_append, terminate_append]
      simp
    · have hi := ih (line ++ [c]) (by simp [hline, Ne.symm hc])
      simpa [recordsFrom, hc] using hi

theorem recordsFrom_line (l line rest : Str) (hl : '\n' ∉ l) :
    recordsFrom line (l ++ '\n' :: rest) = (line ++ l) :: recordsFrom [] rest := by
  induction l generalizing line with
  | nil => simp [recordsFrom]
  | cons c l ih =>
    simp only [List.mem_cons, not_or] at hl
    simp [recordsFrom, Ne.symm hl.1, ih _ hl.2]

/-- The password line never reaches the file, and the content does, with a
newline added to a last line that has none. -/
theorem stdinWrite_eq (login : Login) (content : Str) : stdinWrite login content = terminate content := by
  have hmark : '\n' ∉ fileMark := by with_unfolding_all decide
  have hmarked : records (fileMark ++ '\n' :: content) = fileMark :: records content := by
    simpa [records] using recordsFrom_line fileMark [] content hmark
  have hprint : (records content).flatMap (fun l => l ++ ['\n']) = terminate content := by
    simpa [records] using recordsFrom_print content [] (by simp)
  unfold stdinWrite awkOutput Login.data
  cases hp : login.password with
  | none => simp [hmarked, hprint]
  | some pw =>
    have hpw : records (pw ++ '\n' :: (fileMark ++ '\n' :: content)) = pw :: records (fileMark ++ '\n' :: content) := by
      simpa [records] using recordsFrom_line pw [] _ (login.one_line pw hp)
    have hne := login.not_mark pw hp
    simp only [Option.map_some, Option.getD_some, List.append_assoc, List.singleton_append, hpw, hmarked]
    simp [hne, hprint]

/-! ## The commit -/

/-- The content of the files that nginx can read. -/
abbrev Disk := Str → Option Str

def put (disk : Disk) (path content : Str) : Disk := fun p => if p = path then some content else disk p

/-- How the write of one file ends; a write that raises may leave anything behind. -/
inductive WriteResult where
  | ok
  | raised (left : Str)
  deriving DecidableEq

/-- What the connection does during a commit: whether the backup copies succeed,
how each write ends, and what `nginx -t` prints unless it raises. -/
structure Connection where
  backup : Bool
  write : Str → WriteResult
  test : Option Str

inductive CommitError where
  | backup
  | write (path : Str)
  | test
  | rejected (message : Str)
  deriving DecidableEq

/-- How a commit ends before nginx is reloaded. -/
inductive End where
  | unchanged
  | raised (error : CommitError)
  | reload
  deriving DecidableEq

/-- The writes in order, with the paths written so far; a write that raises ends them. -/
def writeAll (login : Login) (conn : Connection) :
    List (Str × Str) → List Str → Disk → Option CommitError × List Str × Disk
  | [], written, disk => (none, written, disk)
  | (path, text) :: new, written, disk =>
    match conn.write path with
    | .ok => writeAll login conn new (written ++ [path]) (put disk path (stdinWrite login text))
    | .raised left => (some (.write path), written, put disk path left)

def lastChars (n : Nat) (s : Str) : Str := s.drop (s.length - n)

def rejection (test : Str) : Str :=
  lit "nginx -t rejected the change: " ++
    ((splitlines test).find? (contains (lit "[emerg]"))).getD (lastChars 200 (strip test))

def testError (conn : Connection) : Option CommitError :=
  match conn.test with
  | none => some .test
  | some out => if contains (lit "successful") out then none else some (.rejected (rejection out))

/-- The handler of the `try`: every file written gets its original text again. -/
def restore (login : Login) (s : Session) (written : List Str) (disk : Disk) : Disk :=
  written.foldl (fun d path => put d path (stdinWrite login (s.text path))) disk

def commit (login : Login) (s : Session) (conn : Connection) (disk : Disk) : End × Disk :=
  if s.ops = [] then (.unchanged, disk)
  else if conn.backup = false then (.raised .backup, disk)
  else
    let (error, written, disk) := writeAll login conn s.new [] disk
    match error.orElse (fun _ => testError conn) with
    | some e => (.raised e, restore login s written disk)
    | none => (.reload, disk)

/-- A host whose files are as the editor read them. -/
structure Host (s : Session) where
  disk : Disk
  read : ∀ path ∈ Dict.keys s.ops, disk path = some (s.text path)

/-- A commit that raises leaves every file it was going to change as it was; one
that does not has written exactly the new texts and nothing else. -/
def AllOrNothing (login : Login) (s : Session) (conn : Connection) (host : Host s) : Prop :=
  let result := commit login s conn host.disk
  (∀ e, result.1 = .raised e → ∀ path ∈ Dict.keys s.ops, result.2 path = host.disk path) ∧
  ((∀ e, result.1 ≠ .raised e) →
    (∀ f ∈ s.new, result.2 f.1 = some f.2) ∧ ∀ path, path ∉ Dict.keys s.ops → result.2 path = host.disk path)

/-! ## The files after the writes -/

def succeeds (conn : Connection) (f : Str × Str) : Bool := conn.write f.1 = .ok

/-- Write a list of files that all succeed. -/
def putAll (login : Login) (fs : List (Str × Str)) (disk : Disk) : Disk :=
  fs.foldl (fun d f => put d f.1 (stdinWrite login f.2)) disk

theorem putAll_of_not_mem (login : Login) (fs : List (Str × Str)) (disk : Disk) (path : Str)
    (h : path ∉ Dict.keys fs) : putAll login fs disk path = disk path := by
  induction fs generalizing disk with
  | nil => rfl
  | cons f fs ih =>
    simp only [Dict.keys, List.map_cons, List.mem_cons, not_or] at h
    have hi := ih (put disk f.1 (stdinWrite login f.2)) h.2
    simpa [putAll, put, h.1] using hi

theorem putAll_of_mem (login : Login) (fs : List (Str × Str)) (disk : Disk) (hn : (Dict.keys fs).Nodup)
    (f : Str × Str) (h : f ∈ fs) : putAll login fs disk f.1 = some (terminate f.2) := by
  induction fs generalizing disk with
  | nil => simp at h
  | cons g fs ih =>
    simp only [Dict.keys, List.map_cons, List.nodup_cons] at hn
    rcases List.mem_cons.mp h with rfl | h
    · have ho := putAll_of_not_mem login fs (put disk f.1 (stdinWrite login f.2)) f.1 hn.1
      simpa [putAll, put, stdinWrite_eq] using ho
    · exact ih _ hn.2 h

theorem restore_eq (login : Login) (s : Session) (written : List Str) (disk : Disk) :
    restore login s written disk = putAll login (written.map (fun p => (p, s.text p))) disk := by
  simp [restore, putAll, List.foldl_map]

/-- The writes stop at the first that raises. -/
theorem writeAll_eq (login : Login) (conn : Connection) (new : List (Str × Str)) (written : List Str) (disk : Disk) :
    writeAll login conn new written disk =
      match new.dropWhile (succeeds conn) with
      | [] => (none, written ++ Dict.keys new, putAll login new disk)
      | (path, _) :: _ =>
        let before := new.takeWhile (succeeds conn)
        let left := match conn.write path with
          | .ok => []
          | .raised left => left
        (some (.write path), written ++ Dict.keys before, put (putAll login before disk) path left) := by
  induction new generalizing written disk with
  | nil => simp [writeAll, putAll]
  | cons f new ih =>
    obtain ⟨path, text⟩ := f
    cases hw : conn.write path with
    | ok =>
      have hs : succeeds conn (path, text) = true := by simp [succeeds, hw]
      simp only [writeAll, hw, ih, List.dropWhile_cons, hs, if_true, List.takeWhile_cons]
      split <;> simp [putAll, Dict.keys]
    | raised left =>
      have hs : succeeds conn (path, text) = false := by simp [succeeds, hw]
      simp [writeAll, hw, hs, putAll]

theorem restore_of_mem (login : Login) (s : Session) (written : List Str) (hn : written.Nodup) (disk : Disk)
    (path : Str) (h : path ∈ written) : restore login s written disk path = some (terminate (s.text path)) := by
  rw [restore_eq]
  have hk : Dict.keys (written.map (fun p => (p, s.text p))) = written := by simp [Dict.keys, Function.comp_def]
  exact putAll_of_mem login _ disk (by rwa [hk]) (path, s.text path) (List.mem_map.mpr ⟨path, h, rfl⟩)

theorem restore_of_not_mem (login : Login) (s : Session) (written : List Str) (disk : Disk) (path : Str)
    (h : path ∉ written) : restore login s written disk path = disk path := by
  rw [restore_eq]
  have hk : Dict.keys (written.map (fun p => (p, s.text p))) = written := by simp [Dict.keys, Function.comp_def]
  exact putAll_of_not_mem login _ disk path (by rwa [hk])

/-! ## When a commit is all or nothing -/

/-- The first write that raises, if any, left its file as it was, and every text
that the writes had to put into a file can be written as it is. -/
def Clean (s : Session) (conn : Connection) : Prop :=
  s.ops = [] ∨ conn.backup = false ∨
    match s.new.dropWhile (succeeds conn) with
    | [] =>
      if testError conn = none then ∀ f ∈ s.new, Terminated f.2 else ∀ f ∈ s.new, Terminated (s.text f.1)
    | (path, _) :: _ =>
      conn.write path = .raised (s.text path) ∧ ∀ f ∈ s.new.takeWhile (succeeds conn), Terminated (s.text f.1)

/-- Every write went through and nginx accepted the new files. -/
theorem accepted_iff (login : Login) (s : Session) (disk : Disk) :
    ((∀ f ∈ s.new, putAll login s.new disk f.1 = some f.2) ∧
      ∀ path, path ∉ Dict.keys s.ops → putAll login s.new disk path = disk path) ↔
      ∀ f ∈ s.new, Terminated f.2 := by
  have hn : (Dict.keys s.new).Nodup := s.keys_new ▸ s.nodup
  constructor
  · rintro ⟨h, -⟩ f hf
    have hw := h f hf
    rw [putAll_of_mem login s.new disk hn f hf, Option.some.injEq] at hw
    exact (terminate_eq_self f.2).mp hw
  · intro h
    constructor
    · intro f hf
      rw [putAll_of_mem login s.new disk hn f hf, (terminate_eq_self f.2).mpr (h f hf)]
    · intro path hp
      exact putAll_of_not_mem login s.new disk path (s.keys_new ▸ hp)

/-- Every write went through and nginx refused the new files. -/
theorem refused_iff (login : Login) (s : Session) (host : Host s) (disk : Disk) :
    (∀ path ∈ Dict.keys s.ops, restore login s (Dict.keys s.new) disk path = host.disk path) ↔
      ∀ f ∈ s.new, Terminated (s.text f.1) := by
  have hn : (Dict.keys s.new).Nodup := s.keys_new ▸ s.nodup
  have hval : ∀ path ∈ Dict.keys s.ops, restore login s (Dict.keys s.new) disk path = host.disk path ↔
      Terminated (s.text path) := by
    intro path hp
    rw [restore_of_mem login s _ hn disk path (by rwa [s.keys_new]), host.read path hp, Option.some.injEq]
    exact terminate_eq_self (s.text path)
  constructor
  · intro h f hf
    have hp : f.1 ∈ Dict.keys s.ops := s.keys_new ▸ List.mem_map_of_mem hf
    exact (hval f.1 hp).mp (h f.1 hp)
  · intro h path hp
    rw [← s.keys_new] at hp
    obtain ⟨f, hf, rfl⟩ := List.mem_map.mp hp
    exact (hval f.1 (s.keys_new ▸ hp)).mpr (h f hf)

/-- The write of `path` raised after the files in front of it were written. -/
theorem stopped_iff (login : Login) (s : Session) (host : Host s) (before rest : List (Str × Str)) (path text left : Str)
    (hnew : s.new = before ++ (path, text) :: rest) :
    (∀ p ∈ Dict.keys s.ops, restore login s (Dict.keys before) (put (putAll login before host.disk) path left) p =
      host.disk p) ↔ left = s.text path ∧ ∀ f ∈ before, Terminated (s.text f.1) := by
  have hkeys : Dict.keys s.ops = Dict.keys before ++ path :: Dict.keys rest := by
    rw [← s.keys_new, hnew]
    simp [Dict.keys]
  have hn : (Dict.keys before ++ path :: Dict.keys rest).Nodup := hkeys ▸ s.nodup
  have hpath : path ∉ Dict.keys before := fun h => (List.nodup_append.mp hn).2.2 path h path (by simp) rfl
  have hnb : (Dict.keys before).Nodup := (List.nodup_append.mp hn).1
  have hhere : restore login s (Dict.keys before) (put (putAll login before host.disk) path left) path = some left := by
    rw [restore_of_not_mem login s _ _ path hpath]
    simp [put]
  constructor
  · intro h
    constructor
    · have hp := h path (by simp [hkeys])
      rw [hhere, host.read path (by simp [hkeys]), Option.some.injEq] at hp
      exact hp
    · intro f hf
      have hm : f.1 ∈ Dict.keys before := List.mem_map_of_mem hf
      have hp := h f.1 (by simp [hkeys, hm])
      rw [restore_of_mem login s _ hnb _ f.1 hm, host.read f.1 (by simp [hkeys, hm]), Option.some.injEq] at hp
      exact (terminate_eq_self _).mp hp
  · rintro ⟨hleft, hterm⟩ p hp
    by_cases hb : p ∈ Dict.keys before
    · obtain ⟨f, hf, rfl⟩ := List.mem_map.mp hb
      rw [restore_of_mem login s _ hnb _ f.1 hb, host.read f.1 hp, (terminate_eq_self _).mpr (hterm f hf)]
    · by_cases he : p = path
      · subst he
        rw [hhere, host.read p hp, hleft]
      · rw [restore_of_not_mem login s _ _ p hb]
        simp only [put, he, if_false]
        exact putAll_of_not_mem login before host.disk p hb

/-- One file with one directive to comment out. -/
def tokensSession : Session where
  original := [(lit "/etc/nginx/nginx.conf", lit "server_tokens on;\n")]
  ops := [(lit "/etc/nginx/nginx.conf", [⟨1, 0, .replace, [lit "# disabled by ngcorion: server_tokens on;"], by decide⟩])]
  nodup := by simp [Dict.keys]
  known := by simp [Dict.keys]

def tokensHost : Host tokensSession where
  disk := fun path => if path = lit "/etc/nginx/nginx.conf" then some (lit "server_tokens on;\n") else none
  read := by
    intro path hp
    simp only [tokensSession, Dict.keys, List.map_cons, List.map_nil, List.mem_singleton] at hp
    simp [hp, Session.text, tokensSession, Dict.get]

/-- The disk is full: `cat` empties the file and the write raises. -/
def diskFull : Connection := ⟨true, fun _ => .raised [], none⟩

def rootLogin : Login := ⟨none, by simp, by simp⟩

end Commit
