import Ngcorion.Backup.ConfigTree

/-!
# Cisco IOS configurations: parsing and comparing

`parse_cisco` reads the output of `show running-config` into a tree by its
indentation, and `_cisco_diff` walks a backup tree and a live tree side by
side. It returns the commands that are sent to turn the live configuration
into the backup: additions first, then the changes inside sub-modes that both
have, then the removals.
-/
namespace CiscoIOS

open Text ConfigTree

def skipPrefixes : List Str :=
  [lit "building configuration", lit "current configuration", lit "load for ", lit "time source is",
   lit "ntp clock-period"]

/-- Settings that hold one value: writing a value replaces the one that is there. -/
def singleValueHeads : List Str :=
  [lit "hostname", lit "description", lit "ip address", lit "ip default-gateway", lit "ip domain-name",
   lit "ip domain name", lit "clock timezone", lit "enable secret", lit "enable password",
   lit "snmp-server location", lit "snmp-server contact", lit "exec-timeout", lit "ip ssh version",
   lit "ip ssh time-out", lit "ip ssh authentication-retries", lit "logging buffered",
   lit "login block-for", lit "password", lit "transport input", lit "transport output",
   lit "access-class", lit "switchport mode", lit "switchport access vlan", lit "speed", lit "duplex", lit "mtu"]

/-- Settings that are lists: each entry is independent of the others. -/
def multiValueHeads : List Str :=
  [lit "logging host", lit "ntp server", lit "ntp peer", lit "ip route", lit "snmp-server host",
   lit "snmp-server community", lit "ip name-server", lit "access-list", lit "permit", lit "deny",
   lit "remark", lit "ip dhcp excluded-address", lit "boot system", lit "neighbor", lit "network",
   lit "ip helper-address", lit "switchport trunk allowed vlan add"]

def hasHead (low head : Str) : Bool := low = head || startsWith (head ++ [' ']) low

/-- The first one or two words of a line, without a leading `no`. -/
def heuristicId (toks : List Str) : Str :=
  let toks := if toks.head? = some (lit "no") then toks.tail else toks
  if 3 ≤ toks.length then join [' '] (toks.take 2) else toks.headD []

/-- `_CISCO_UNRESTORABLE.match` -/
def unrestorable (u : Unicode) (key : Str) : Bool :=
  startsWith (lit "crypto pki certificate chain") key &&
    match (key.drop (lit "crypto pki certificate chain").length).head? with
    | none => true
    | some c => !u.word c

/-- The end of a prompt: its sign, blanks, and possibly the echoed `show` command. -/
def promptTail : Str → Bool
  | [] => false
  | c :: t => (c = '#' || c = '>') && (lstrip t = [] || startsWith (lit "show ") (lstrip t))

/-- `_CISCO_PROMPT_RE.match` -/
def isPrompt (u : Unicode) (line : Str) : Bool :=
  let name := fun c => u.word c || c = '.' || c = '-'
  line.takeWhile name ≠ [] &&
    match line.dropWhile name with
    | '(' :: t =>
      match t.dropWhile (· ≠ ')') with
      | _ :: rest => promptTail rest
      | [] => false
    | rest => promptTail rest

/-- What a line configures, independent of its value; empty for list entries. -/
def _setting_id (u : Unicode) (line : Str) : Str :=
  let low := u.lower line
  if multiValueHeads.any (hasHead low) then []
  else match singleValueHeads.find? (hasHead low) with
    | some head => head
    | none => heuristicId (words low)

/-- Commands recreating a node and its sub-mode from scratch: the node's line is
followed by its children, one column further in, and by `exit`. -/
def blockBody (depth : Nat) : Forest → List Str
  | .nil => []
  | .cons _ line children rest =>
    (List.replicate depth ' ' ++ line) ::
      ((if children = .nil then [] else blockBody (depth + 1) children ++ [List.replicate depth ' ' ++ lit "exit"]) ++
        blockBody depth rest)

@[simp] theorem blockBody_nil (depth : Nat) : blockBody depth .nil = [] := rfl

theorem blockBody_cons (depth : Nat) (key line : Str) (children rest : Forest) :
    blockBody depth (.cons key line children rest) = (List.replicate depth ' ' ++ line) ::
      ((if children = .nil then [] else blockBody (depth + 1) children ++ [List.replicate depth ' ' ++ lit "exit"]) ++
        blockBody depth rest) := rfl

def _cisco_block (line : Str) (children : Forest) : List Str := blockBody 0 (.cons line line children .nil)

/-! ## Parsing -/

/-- The text before the first delimiter, where there is one: `s.split(delim, 1)[0]`. -/
def before (delim : Str) : Str → Option Str
  | [] => none
  | c :: s => if startsWith delim (c :: s) then some [] else (before delim s).map (c :: ·)

def delim : Str := lit "^C"

def stripNewlines (s : Str) : Str :=
  ((s.dropWhile (· = '\n')).reverse.dropWhile (· = '\n')).reverse

/-- The tree so far, the open nodes from the innermost outwards with their
indents, and the banner that is being read with the lines of it so far. -/
structure ParseState where
  root : Forest
  stack : List (Nat × Str)
  banner : Option (Str × List Str)

def ParseState.path (s : ParseState) : List Str := (s.stack.map Prod.snd).reverse

def textKey : Str := lit "__text__"

/-- A finished banner is one node at the root that holds the whole text. -/
def closeBanner (root : Forest) (key : Str) (texts : List Str) : ParseState :=
  ⟨root.set key key (.cons textKey (stripNewlines (unlines texts)) .nil .nil), [], none⟩

def openBanner (s : ParseState) (stripped : Str) : ParseState :=
  let parts := splitMax 2 stripped
  let body := parts[2]?.getD []
  let rest := if startsWith delim body then body.drop delim.length else body
  let key := lit "banner " ++ parts[1]?.getD []
  match before delim rest with
  | some text => closeBanner s.root key [text]
  | none => { s with banner := some (key, [rest]) }

def ignored (u : Unicode) (stripped : Str) : Bool :=
  let low := u.lower stripped
  stripped = [] || startsWith (lit "!") stripped || isPrompt u stripped ||
    skipPrefixes.any (fun p => startsWith p low) || low = lit "end" || startsWith (lit "show running-config") low

def indentOf (raw : Str) : Nat := (raw.takeWhile (· = ' ')).length

def parseStep (u : Unicode) (s : ParseState) (line : Str) : ParseState :=
  match s.banner with
  | some (key, texts) =>
    match before delim line with
    | some text => closeBanner s.root key (texts ++ [text])
    | none => { s with banner := some (key, texts ++ [line]) }
  | none =>
    let raw := rstrip line
    let stripped := strip raw
    if ignored u stripped then s
    else if startsWith (lit "banner ") (u.lower stripped) then openBanner s stripped
    else
      let stack := s.stack.dropWhile (fun e => indentOf raw ≤ e.1)
      let path := (stack.map Prod.snd).reverse
      ⟨s.root.changeAt (fun f => f.child stripped stripped) path, (indentOf raw, stripped) :: stack, none⟩

/-- A banner that never ends takes the rest of the text. -/
def finish (s : ParseState) : Forest :=
  match s.banner with
  | some (key, texts) => (closeBanner s.root key texts).root
  | none => s.root

/-- Parse `show running-config` into the children of the root node. -/
def parse_cisco (u : Unicode) (text : Str) : Forest :=
  finish ((splitlines text).foldl (parseStep u) ⟨.nil, [], none⟩)

/-! ## Comparing -/

/-- The text of a banner node; the parser gives every banner one. -/
def bannerText (children : Forest) : Str := ((children.get textKey).map Prod.fst).getD []

def _banner_commands (key text : Str) : List Str :=
  let mark := ((lit "^#%@~").find? (fun d => d ∉ text)).getD '^'
  (key ++ [' ', mark]) :: (lines text ++ [[mark]])

def isBanner (key : Str) : Bool := startsWith (lit "banner ") key

def isNegative (u : Unicode) (key : Str) : Bool := startsWith (lit "no ") (u.lower key)

def titleOf (path : List Str) : Str := if path = [] then lit "global" else join (lit " › ") path

def noCommand (key : Str) : Str := lit "no " ++ key

/-- What the loop over the backup collects: the additions, the changes inside
sub-modes, the settings that were added, and the marked differences. -/
structure Pass where
  adds : List Str
  nested : List Str
  settings : List Str
  marks : Marks

/-- The loop over what only the live device has. -/
def liveLoop (u : Unicode) (title : Str) (backup : Forest) (settings : List Str) : Forest → Marks → List Str × Marks
  | .nil, m => ([], m)
  | .cons key line children rest, m =>
    let step : List Str × Marks :=
      if key ∈ backup.keys || unrestorable u key then ([], m)
      else if isBanner key then ([noCommand key], mark title .removed key m)
      else if isNegative u key then ([], mark title .removed line m)
      else
        (if _setting_id u key ≠ [] ∧ _setting_id u key ∈ settings then [] else [noCommand key],
          markAll 1 title .removed (children.flatten 1) (mark title .removed line m))
    let later := liveLoop u title backup settings rest step.2
    (step.1 ++ later.1, later.2)

/-- The loop over the backup's entries. -/
def backupLoop (u : Unicode) (path : List Str) : Forest → Forest → Marks → Pass
  | .nil, _, m => ⟨[], [], [], m⟩
  | .cons key line children rest, live, m =>
    let title := titleOf path
    let step : Pass :=
      if unrestorable u key then
        let same := (live.get key).map (fun n => n.2.flatten 0) = some (children.flatten 0)
        ⟨[], [], [], if same then m else skip (key ++ lit " (certificates are not restored)") m⟩
      else if isBanner key then
        let text := bannerText children
        let old := (live.get key).map (fun n => bannerText n.2)
        if old = some text then ⟨[], [], [], m⟩
        else
          let m := if old.isSome then mark title .removed (key ++ lit " (current text)") m else m
          ⟨_banner_commands key text, [], [], mark title .added (key ++ lit " (backup text)") m⟩
      else match live.get key with
        | none =>
          ⟨_cisco_block line children, [], if _setting_id u key = [] then [] else [_setting_id u key],
            markAll 1 title .added (children.flatten 1) (mark title .added line m)⟩
        | some (_, liveChildren) =>
          if children = .nil ∧ liveChildren = .nil then ⟨[], [], [], m⟩
          else
            let inside := path ++ [line]
            let first := backupLoop u inside children liveChildren ⟨m.diff, none⟩
            let second := liveLoop u (titleOf inside) children first.settings liveChildren first.marks
            let inner := first.adds ++ first.nested ++ second.1
            ⟨[], if inner = [] then [] else line :: (inner ++ [lit "exit"]), [], ⟨second.2.diff, m.current⟩⟩
    let later := backupLoop u path rest live step.marks
    ⟨step.adds ++ later.adds, step.nested ++ later.nested, step.settings ++ later.settings, later.marks⟩

@[simp] theorem backupLoop_nil (u : Unicode) (path : List Str) (live : Forest) (m : Marks) :
    backupLoop u path .nil live m = ⟨[], [], [], m⟩ := rfl

def _cisco_diff (u : Unicode) (backup live : Forest) (path : List Str) (diff : ConfigDiff) : List Str × ConfigDiff :=
  let first := backupLoop u path backup live ⟨diff, none⟩
  let second := liveLoop u (titleOf path) backup first.settings live first.marks
  (first.adds ++ first.nested ++ second.1, second.2.diff)

def diff_cisco (u : Unicode) (backup_text live_text : Str) : ConfigDiff :=
  let result := _cisco_diff u (parse_cisco u backup_text) (parse_cisco u live_text) [] .empty
  { result.2 with commands := result.1 }

end CiscoIOS
