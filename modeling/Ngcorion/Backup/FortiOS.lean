import Ngcorion.Backup.ConfigTree

/-!
# FortiOS configurations: parsing and comparing

`parse_fortios` reads the output of `show full-configuration` into a tree, and
`_forti_diff` walks a backup tree and a live tree side by side. It returns the
commands that turn the live configuration into the backup, and it records the
same changes for the preview. A text on which the source raises an
`IndexError` (a `set` line without a key) has no tree.
-/
namespace FortiOS

open Text ConfigTree

def volatileSetKeys : List Str := [lit "cfg-save", lit "cfg-revert-timeout"]

/-- A pattern letter under `re.I`, with the case relatives outside ASCII. -/
def sameLetter (p c : Char) : Bool :=
  c = p || c = p.toUpper || (p = 'i' && (c = 'İ' || c = 'ı')) || (p = 's' && c = 'ſ')

def prefixIgnoreCase : Str → Str → Bool
  | [], _ => true
  | _ :: _, [] => false
  | p :: ps, c :: cs => sameLetter p c && prefixIgnoreCase ps cs

def searchIgnoreCase (p s : Str) : Bool := s.tails.any (prefixIgnoreCase p)

/-- `_FORTI_ORDERED_TABLE.search`: tables whose entry order is significant. -/
def orderedTable (line : Str) : Bool :=
  searchIgnoreCase (lit "policy") line || searchIgnoreCase (lit "local-in") line ||
    searchIgnoreCase (lit "shaping") line || searchIgnoreCase (lit "acl") line

/-- The end of a prompt: its sign, and possibly the echoed `show` command. -/
def promptTail : Str → Bool
  | [] => false
  | c :: t => (c = '#' || c = '$') && (lstrip t = [] || startsWith (lit "show ") (lstrip t))

/-- `_PROMPT_RE.match` -/
def isPrompt (line : Str) : Bool :=
  line.takeWhile (fun c => !isSpace c) ≠ [] &&
    match line.dropWhile (fun c => !isSpace c) with
    | ' ' :: '(' :: t =>
      match t.dropWhile (· ≠ ')') with
      | ')' :: ' ' :: u => promptTail u
      | _ => false
    | ' ' :: u => promptTail u
    | _ => false

def keepLine (raw : Str) : Option Str :=
  let line := strip raw
  if line = [] || startsWith (lit "#") line || isPrompt line then none
  else if startsWith (lit "show full-configuration") (line.map Char.toLower) then none
  else some line

def _forti_lines (text : Str) : List Str := (splitlines text).filterMap keepLine

/-- `line.split(None, 1)[0]` -/
def verb (line : Str) : Str := (splitMax 1 line).headD []

/-- `line.split(None, 1)[1]`, where there is one -/
def argument (line : Str) : Option Str := (splitMax 1 line)[1]?

def _forti_key (line : Str) : Str :=
  match splitMax 2 line with
  | first :: key :: _ => if first = lit "set" ∨ first = lit "unset" then lit "set " ++ key else line
  | _ => line

/-- One line of the parser: the tree so far and the keys of the open scopes. -/
def parseStep (state : Forest × List Str) (line : Str) : Option (Forest × List Str) :=
  let (root, path) := state
  if verb line = lit "config" ∨ verb line = lit "edit" then
    some (root.changeAt (fun f => f.child line line) path, path ++ [line])
  else if verb line = lit "end" ∨ verb line = lit "next" then some (root, path.dropLast)
  else if verb line = lit "set" then
    match argument (_forti_key line) with
    | none => none
    | some key =>
      if key ∈ volatileSetKeys then some (root, path)
      else some (root.changeAt (fun f => f.set (_forti_key line) line .nil) path, path)
  else some (root, path)

def parseFrom (state : Forest × List Str) : List Str → Option (Forest × List Str)
  | [] => some state
  | line :: ls => (parseStep state line).bind (fun s => parseFrom s ls)

/-- Parse `show full-configuration` output into the children of the root node. -/
def parse_fortios (text : Str) : Option Forest :=
  (parseFrom (.nil, []) (_forti_lines text)).map Prod.fst

def _is_enc (line : Str) : Bool :=
  match splitMax 3 line with
  | _ :: _ :: third :: _ => third = lit "ENC"
  | _ => false

def closer (line : Str) : Str := if verb line = lit "edit" then lit "next" else lit "end"

/-- Commands that recreate a scope's children from scratch. -/
def _forti_body : Forest → List Str
  | .nil => []
  | .cons _ line children rest =>
    (if verb line = lit "set" then [line] else line :: (_forti_body children ++ [closer line])) ++
      _forti_body rest

def unsetCommand (key : Str) : Str := lit "unset " ++ (argument key).getD []

def deleteCommand (line : Str) : Str := lit "delete " ++ (argument line).getD []

/-- Commands that empty a scope present only on the live device. -/
def _forti_clear : Forest → List Str
  | .nil => []
  | .cons key line children rest =>
    (if verb line = lit "set" then [unsetCommand key]
     else if verb line = lit "edit" then [deleteCommand line]
     else if _forti_clear children = [] then []
     else line :: (_forti_clear children ++ [lit "end"])) ++ _forti_clear rest

def moveCommand (name before : Str) : Str := lit "move " ++ name ++ lit " before " ++ before

/-- The loop of `_forti_moves` at position `i` of the desired order. -/
def movesFrom (i : Nat) : List Str → List Str → List Str
  | [], _ => []
  | name :: desired, current =>
    match current[i]? with
    | none => movesFrom (i + 1) desired current
    | some c =>
      if c = name then movesFrom (i + 1) desired current
      else moveCommand name c :: movesFrom (i + 1) desired ((current.erase name).insertIdx i name)

/-- `move` commands turning the `current` edit order into `desired`. -/
def _forti_moves (desired current : List Str) : List Str :=
  movesFrom 0 desired (current.filter (· ∈ desired))

def titleOf (path : List Str) : Str := if path = [] then lit "(top level)" else join (lit " › ") path

/-- The second loop: what only the live device has. -/
def liveLoop (title : Str) (backup : Forest) : Forest → Marks → List Str × Marks
  | .nil, m => ([], m)
  | .cons key line children rest, m =>
    let step : List Str × Marks :=
      if key ∈ backup.keys then ([], m)
      else if verb line = lit "set" then ([unsetCommand key], mark title .removed line m)
      else if verb line = lit "edit" then
        ([deleteCommand line], markAll 4 title .removed (children.flatten 1) (mark title .removed line m))
      else if _forti_clear children = [] then ([], m)
      else (line :: (_forti_clear children ++ [lit "end"]), mark title .removed line m)
    let later := liveLoop title backup rest step.2
    (step.1 ++ later.1, later.2)

def isOrdered (path : List Str) : Bool :=
  match path.getLast? with
  | none => false
  | some line => startsWith (lit "config ") line && orderedTable line

def isEditKey (key : Str) : Bool := startsWith (lit "edit ") key

def editNames (f : Forest) : List Str := (f.keys.filter isEditKey).map (fun k => (argument k).getD [])

def currentNames (backup live : Forest) : List Str :=
  ((live.keys.filter (fun k => isEditKey k && k ∈ backup.keys)).map (fun k => (argument k).getD [])) ++
    (editNames backup).filter (fun n => lit "edit " ++ n ∉ live.keys)

/-- The moves that put the entries of an ordered table in the backup's order. -/
def orderStep (path : List Str) (backup live : Forest) (m : Marks) : List Str × Marks :=
  if isOrdered path then
    let moves := _forti_moves (editNames backup) (currentNames backup live)
    (moves, moves.foldl (fun m t => mark (titleOf path) .added t m) m)
  else ([], m)

/-- The first loop: what the backup has, entry by entry. -/
def backupLoop (path : List Str) : Forest → Forest → Marks → List Str × Marks
  | .nil, _, m => ([], m)
  | .cons key line children rest, live, m =>
    let title := titleOf path
    let step : List Str × Marks :=
      if verb line = lit "set" then
        match live.get key with
        | none => ([line], mark title .added line m)
        | some (old, _) =>
          if old = line then ([], m)
          else if _is_enc line && _is_enc old then
            ([], skip (title ++ lit " › " ++ key ++ lit " (encrypted value, cannot be compared)") m)
          else ([line], mark title .added line (mark title .removed old m))
      else
        match live.get key with
        | none => (line :: (_forti_body children ++ [closer line]),
            markAll 4 title .added (children.flatten 1) (mark title .added line m))
        | some (_, liveChildren) =>
          let inside := path ++ [line]
          let first := backupLoop inside children liveChildren ⟨m.diff, none⟩
          let second := liveLoop (titleOf inside) children liveChildren first.2
          let third := orderStep inside children liveChildren second.2
          let inner := first.1 ++ second.1 ++ third.1
          (if inner = [] then [] else line :: (inner ++ [closer line]), ⟨third.2.diff, m.current⟩)
    let later := backupLoop path rest live step.2
    (step.1 ++ later.1, later.2)

def _forti_diff (backup live : Forest) (path : List Str) (diff : ConfigDiff) : List Str × ConfigDiff :=
  let first := backupLoop path backup live ⟨diff, none⟩
  let second := liveLoop (titleOf path) backup live first.2
  let third := orderStep path backup live second.2
  (first.1 ++ second.1 ++ third.1, third.2.diff)

def diff_fortios (backup_text live_text : Str) : Option ConfigDiff :=
  (parse_fortios backup_text).bind fun backup =>
    (parse_fortios live_text).map fun live =>
      let result := _forti_diff backup live [] .empty
      { result.2 with commands := result.1 }

end FortiOS
