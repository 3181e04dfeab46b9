import Ngcorion.Core.HostKeys

/-!
# The file of known hosts

Every change of a pinned key reads the whole file, changes the table that was read and writes a new file from it. What
the reading leaves out is not in the new file.
-/
namespace KnownHosts

open Text HostKeys

/-! ## The table -/

/-- A line of the file, parsed: the host names it is for, and their key. -/
structure HostKeyEntry where
  hostnames : List Str
  key : PKey
  deriving DecidableEq

/-- What a line is to the library. An invalid one, whose key is not base64, ends the reading. -/
inductive Line where
  | entry (e : HostKeyEntry)
  | ignored
  | invalid

abbrev Table := List HostKeyEntry

def has (host type : Str) (e : HostKeyEntry) : Bool := host ∈ e.hostnames && e.key.name = type

/-- The key of a type that is pinned for a host: that of the first line with both. -/
def find (table : Table) (host type : Str) : Option Str := (table.find? (has host type)).map (·.key.bytes)

/-- `keys.add`: the line that has the host and the type gets the key; without one, a line is added. -/
def addKey : Table → Str → PKey → Table
  | [], host, key => [⟨[host], key⟩]
  | e :: table, host, key => if has host key.name e then { e with key } :: table else e :: addKey table host key

/-- `keys.keys()` -/
def hostnames (table : Table) : List Str := (table.flatMap (·.hostnames)).eraseDups

/-- `keys[host].items()`: one item for each line of the host, with the key that is found for the type. -/
def items (table : Table) (host : Str) : List PKey :=
  (table.filter (host ∈ ·.hostnames)).map fun e => ⟨e.key.name, (find table host e.key.name).getD e.key.bytes⟩

/-- The pairs of host and key that the loops over the table go through -/
def pairs (table : Table) : List (Str × PKey) := (hostnames table).flatMap fun h => (items table h).map (h, ·)

/-! ## The file -/

/-- The library that reads and writes lines. `genuine` are the keys it can build. -/
structure Paramiko where
  from_line : Str → Line
  get_base64 : PKey → Str
  genuine : PKey → Prop

/-- What separates and starts the parts of a line is not in the name of a host. -/
structure GoodName (name : Str) : Prop where
  nonempty : name ≠ []
  no_comment : name.head? ≠ some '#'
  one_word : ∀ c ∈ name, isSpace c = false ∧ c ≠ ','

variable (lib : Paramiko)

def writtenLine (host : Str) (key : PKey) : Str := host ++ ' ' :: key.name ++ ' ' :: lib.get_base64 key

/-- What the program relies on: a genuine key is one word of base64 after the word of its type, and a line with one
good host name and a genuine key is read back. -/
structure Paramiko.Lawful : Prop where
  word : ∀ key, lib.genuine key → lib.get_base64 key ≠ [] ∧ ∀ c ∈ lib.get_base64 key, isSpace c = false
  read_back : ∀ host key, GoodName host → lib.genuine key →
    lib.from_line (writtenLine lib host key) = .entry ⟨[host], key⟩
  reads_genuine : ∀ line e, lib.from_line line = .entry e → lib.genuine e.key

/-- A stripped line of the file; blank lines and comments are passed over. -/
def parsed (line : Str) : Line :=
  if strip line = [] ∨ (strip line).head? = some '#' then .ignored else lib.from_line (strip line)

/-- `HostKeys.load`: the entries before the first invalid line -/
def load : List Str → Table
  | [] => []
  | l :: ls =>
    match parsed lib l with
    | .entry e => e :: load ls
    | .ignored => load ls
    | .invalid => []

/-- The exception of `load` is caught, and the table keeps what was read; no file is an empty table. -/
def _load_unlocked (file : Option (List Str)) : Table := (file.map (load lib)).getD []

/-- Where the save of a file fails -/
inductive Fault where
  | open | write (lines : Nat) | sync | replace | chmod
  deriving DecidableEq

/-- The file and the temporary one next to it -/
structure Disk where
  path : Option (List Str)
  tmp : Option (List Str)

/-- Whether the save raises, and the files it leaves. A failed write removes the temporary file. -/
def _atomic_save (fault : Option Fault) (disk : Disk) (table : Table) : Bool × Disk :=
  let lines := (pairs table).map fun p => writtenLine lib p.1 p.2
  match fault with
  | some .open => (true, disk)
  | some (.write _) | some .sync => (true, { disk with tmp := none })
  | some .replace => (true, { disk with tmp := some lines })
  | some .chmod => (true, ⟨some lines, none⟩)
  | none => (false, ⟨some lines, none⟩)

def add (fault : Option Fault) (disk : Disk) (e : Endpoint) (key : PKey) : Bool × Disk :=
  _atomic_save lib fault disk (addKey (_load_unlocked lib disk.path) e.entryName key)

/-- The table without the host, built anew -/
def remaining (table : Table) (name : Str) : Table :=
  (pairs table).foldl (fun t p => if p.1 = name then t else addKey t p.1 p.2) []

def forget (fault : Option Fault) (disk : Disk) (e : Endpoint) : Bool × Disk :=
  if disk.path = none then (false, disk)
  else if e.entryName ∉ hostnames (_load_unlocked lib disk.path) then (false, disk)
  else _atomic_save lib fault disk (remaining (_load_unlocked lib disk.path) e.entryName)

/-! ## What the lines pin -/

/-- The well-formed lines, also those after an invalid one -/
def entries (lines : List Str) : Table :=
  lines.filterMap fun l => match parsed lib l with
    | .entry e => some e
    | _ => none

def pinned (file : Option (List Str)) (host type : Str) : Option Str := find (entries lib (file.getD [])) host type

/-- Every key that was pinned for another name still is. -/
def OthersKept (before after : Option (List Str)) (name : Str) : Prop :=
  ∀ host, host ≠ name → ∀ type bytes, pinned lib before host type = some bytes → pinned lib after host type = some bytes

/-- The lines before the first invalid one pin what all lines pin for the other names. -/
def AllRead (file : Option (List Str)) (name : Str) : Prop :=
  ∀ host, host ≠ name → ∀ type bytes, pinned lib file host type = some bytes →
    find (_load_unlocked lib file) host type = some bytes

/-- The first line of a type that has either host has both. -/
def Shares (table : Table) (a b type : Str) : Prop :=
  ∃ e, table.find? (fun e => has a type e || has b type e) = some e ∧ has a type e = true ∧ has b type e = true

theorem find_cons (e : HostKeyEntry) (table : Table) (host type : Str) :
    find (e :: table) host type = if has host type e then some e.key.bytes else find table host type := by
  unfold find
  by_cases h : has host type e <;> simp [h]

theorem find_append (a b : Table) (host type : Str) : find (a ++ b) host type = (find a host type).or (find b host type) := by
  induction a with
  | nil => rfl
  | cons e a ih =>
    rw [List.cons_append, find_cons, find_cons, ih]
    split <;> rfl

theorem load_entries (lines : List Str) : load lib lines <+: entries lib lines := by
  induction lines with
  | nil => exact List.prefix_refl _
  | cons l ls ih =>
    cases h : parsed lib l with
    | entry e => simpa [load, entries, h] using ih
    | ignored => simpa [load, entries, h] using ih
    | invalid => simp [load, h]

/-- What was read is pinned. -/
theorem pinned_of_load {file : Option (List Str)} {host type bytes : Str}
    (h : find (_load_unlocked lib file) host type = some bytes) : pinned lib file host type = some bytes := by
  cases file with
  | none => simp [_load_unlocked, find] at h
  | some lines =>
    obtain ⟨rest, hrest⟩ := load_entries lib lines
    have h' : find (load lib lines) host type = some bytes := h
    rw [pinned, Option.getD_some, ← hrest, find_append, h']
    rfl

theorem has_iff {host type : Str} {e : HostKeyEntry} : has host type e = true ↔ host ∈ e.hostnames ∧ e.key.name = type := by
  simp [has]

theorem shares_cons (e : HostKeyEntry) (table : Table) (a b type : Str) : Shares (e :: table) a b type ↔
    if has a type e || has b type e then has a type e = true ∧ has b type e = true else Shares table a b type := by
  unfold Shares
  by_cases h : has a type e || has b type e <;> simp [h]

theorem has_key {host type : Str} {e : HostKeyEntry} {key : PKey} (h : e.key.name = key.name) :
    has host type { e with key } = has host type e := by
  simp [has, h]

/-- A new key reaches another host only over a line that both share. -/
theorem find_addKey_other {host name : Str} (hne : host ≠ name) (table : Table) (key : PKey) (type : Str) :
    (type = key.name ∧ Shares table name host type ∧ find (addKey table name key) host type = some key.bytes) ∨
      (¬ (type = key.name ∧ Shares table name host type) ∧
        find (addKey table name key) host type = find table host type) := by
  induction table with
  | nil => exact .inr ⟨by simp [Shares], by simp [addKey, find, has, hne]⟩
  | cons e table ih =>
    rw [addKey, shares_cons]
    by_cases hname : has name key.name e
    · -- this is the line that gets the key
      have hkey := (has_iff.mp hname).2
      rw [if_pos hname, find_cons, find_cons, has_key hkey]
      by_cases hhost : has host type e
      · obtain rfl : key.name = type := hkey.symm.trans (has_iff.mp hhost).2
        exact .inl (by simp [hname, hhost])
      · refine .inr ⟨?_, by simp [hhost]⟩
        rintro ⟨rfl, hs⟩
        simp [hname, hhost] at hs
    · rw [if_neg hname, find_cons, find_cons]
      by_cases hhost : has host type e
      · refine .inr ⟨?_, by simp [hhost]⟩
        rintro ⟨rfl, hs⟩
        simp [hname, hhost] at hs
      · by_cases htype : type = key.name
        · subst htype
          simpa [hname, hhost] using ih
        · rcases ih with ⟨h, _⟩ | ⟨_, h⟩
          · exact absurd h htype
          · exact .inr ⟨fun hs => htype hs.1, by simpa [hhost] using h⟩

theorem find_addKey_self (table : Table) (name : Str) (key : PKey) :
    find (addKey table name key) name key.name = some key.bytes := by
  induction table with
  | nil => simp [addKey, find, has]
  | cons e table ih =>
    by_cases hname : has name key.name e
    · rw [addKey, if_pos hname, find_cons, has_key (has_iff.mp hname).2, if_pos hname]
    · rw [addKey, if_neg hname, find_cons, if_neg hname, ih]

/-! ## Writing and reading back -/

/-- One line for each pair -/
def single (p : Str × PKey) : HostKeyEntry := ⟨[p.1], p.2⟩

/-- Pairs that say what a table says are as good as the table. -/
theorem find_single {table : Table} {ps : List (Str × PKey)} (hsound : ∀ p ∈ ps, find table p.1 p.2.name = some p.2.bytes)
    (hcomplete : ∀ host type bytes, find table host type = some bytes → ∃ p ∈ ps, p.1 = host ∧ p.2.name = type)
    (host type : Str) : find (ps.map single) host type = find table host type := by
  have hfind : find (ps.map single) host type = (ps.find? fun p => has host type (single p)).map (·.2.bytes) := by
    simp [find, List.find?_map, Function.comp_def, single]
  rw [hfind]
  cases hf : ps.find? fun p => has host type (single p) with
  | some p =>
    have hhas := List.find?_some hf
    obtain ⟨rfl, rfl⟩ : host = p.1 ∧ p.2.name = type := by simpa [single] using has_iff.mp hhas
    exact (hsound p (List.mem_of_find?_eq_some hf)).symm
  | none =>
    cases ht : find table host type with
    | none => rfl
    | some bytes =>
      obtain ⟨p, hp, rfl, rfl⟩ := hcomplete host type bytes ht
      have := List.find?_eq_none.mp hf p hp
      simp [has, single] at this

theorem mem_pairs {table : Table} {p : Str × PKey} (h : p ∈ pairs table) :
    ∃ e ∈ table, p.1 ∈ e.hostnames ∧ p.2.name = e.key.name ∧ find table p.1 p.2.name = some p.2.bytes := by
  obtain ⟨host, hhost, hp⟩ := List.mem_flatMap.mp h
  obtain ⟨key, hkey, rfl⟩ := List.mem_map.mp hp
  obtain ⟨e, he, rfl⟩ := List.mem_map.mp hkey
  have hmem : host ∈ e.hostnames := by simpa using List.of_mem_filter he
  have hin := List.mem_of_mem_filter he
  refine ⟨e, hin, hmem, rfl, ?_⟩
  -- the line itself has the host and the type, so a key is found
  cases hf : find table host e.key.name with
  | some bytes => rfl
  | none =>
    have hnone := List.find?_eq_none.mp (Option.map_eq_none_iff.mp hf) e hin
    simp [has, hmem] at hnone

theorem pairs_complete {table : Table} {host type bytes : Str} (h : find table host type = some bytes) :
    ∃ p ∈ pairs table, p.1 = host ∧ p.2.name = type := by
  obtain ⟨e, he, rfl⟩ := Option.map_eq_some_iff.mp h
  obtain ⟨hmem, htype⟩ := has_iff.mp (List.find?_some he)
  have hin := List.mem_of_find?_eq_some he
  refine ⟨(host, ⟨e.key.name, (find table host e.key.name).getD e.key.bytes⟩), ?_, rfl, htype⟩
  refine List.mem_flatMap.mpr ⟨host, ?_, List.mem_map.mpr ⟨_, List.mem_map.mpr ⟨e, ?_, rfl⟩, rfl⟩⟩
  · exact List.mem_eraseDups.mpr (List.mem_flatMap.mpr ⟨e, hin, hmem⟩)
  · exact List.mem_filter.mpr ⟨hin, by simpa using hmem⟩

theorem find_pairs (table : Table) (host type : Str) : find ((pairs table).map single) host type = find table host type :=
  find_single (fun _ hp => (mem_pairs hp).choose_spec.2.2.2) (fun _ _ _ h => pairs_complete h) host type

/-- The table holds good names and genuine keys. -/
def Sound (table : Table) : Prop := ∀ e ∈ table, (∀ host ∈ e.hostnames, GoodName host) ∧ lib.genuine e.key

variable {lib}

theorem Sound.pairs {table : Table} (h : Sound lib table) {p : Str × PKey} (hp : p ∈ pairs table) :
    GoodName p.1 ∧ lib.genuine p.2 := by
  obtain ⟨e, he, hmem, -, hfind⟩ := mem_pairs hp
  obtain ⟨e', he', hbytes⟩ := Option.map_eq_some_iff.mp hfind
  have hkey : e'.key = p.2 := by
    have htype := (has_iff.mp (List.find?_some he')).2
    cases hk : e'.key
    cases hp2 : p.2
    simp_all
  exact ⟨(h e he).1 _ hmem, hkey ▸ (h e' (List.mem_of_find?_eq_some he')).2⟩

theorem Sound.addKey {table : Table} (h : Sound lib table) {host : Str} {key : PKey} (hhost : GoodName host)
    (hkey : lib.genuine key) : Sound lib (addKey table host key) := by
  induction table with
  | nil =>
    intro e he
    obtain rfl := List.mem_singleton.mp he
    exact ⟨fun h hh => List.mem_singleton.mp hh ▸ hhost, hkey⟩
  | cons e table ih =>
    have hrest : Sound lib table := fun x hx => h x (by simp [hx])
    rw [KnownHosts.addKey]
    split
    · intro x hx
      rcases List.mem_cons.mp hx with rfl | hx
      · exact ⟨(h e (by simp)).1, hkey⟩
      · exact hrest x hx
    · intro x hx
      rcases List.mem_cons.mp hx with rfl | hx
      · exact h x (by simp)
      · exact ih hrest x hx

theorem parsed_written (hlib : lib.Lawful) {host : Str} {key : PKey} (hhost : GoodName host) (hkey : lib.genuine key) :
    parsed lib (writtenLine lib host key) = .entry ⟨[host], key⟩ := by
  obtain ⟨c, rest, rfl⟩ := List.exists_cons_of_ne_nil hhost.nonempty
  have hhash : c ≠ '#' := fun h => hhost.no_comment (by simp [h])
  obtain ⟨hne, hword⟩ := hlib.word key hkey
  have hstrip : strip (writtenLine lib (c :: rest) key) = writtenLine lib (c :: rest) key := by
    refine strip_of_ends ?_ ?_
    · intro x hx
      obtain rfl : c = x := by simpa [writtenLine] using hx
      exact (hhost.one_word c (by simp)).1
    · intro x hx
      rw [writtenLine, List.reverse_append, List.reverse_cons, List.append_assoc,
        List.head?_append_of_ne_nil _ (by simpa using hne)] at hx
      exact hword x (List.mem_reverse.mp (List.mem_of_head? hx))
  rw [parsed, hstrip, hlib.read_back _ key hhost hkey, if_neg (by simp [writtenLine, hhash])]

theorem entries_written (hlib : lib.Lawful) {ps : List (Str × PKey)}
    (h : ∀ p ∈ ps, GoodName p.1 ∧ lib.genuine p.2) :
    entries lib (ps.map fun p => writtenLine lib p.1 p.2) = ps.map single := by
  induction ps with
  | nil => rfl
  | cons p ps ih =>
    have hp := h p (by simp)
    have hi := ih fun q hq => h q (by simp [hq])
    simp only [entries, List.map_cons, List.filterMap_cons, parsed_written hlib hp.1 hp.2] at hi ⊢
    rw [hi]
    rfl

/-- A table that is written pins what it said. -/
theorem pinned_written (hlib : lib.Lawful) {table : Table} (h : Sound lib table) (host type : Str) :
    pinned lib (some ((pairs table).map fun p => writtenLine lib p.1 p.2)) host type = find table host type := by
  rw [pinned, Option.getD_some, entries_written hlib fun p hp => h.pairs hp, find_pairs]

/-! ## The table without a host -/

/-- A table of single names other than one, each with the key that another table has -/
def Part (table : Table) (name : Str) (part : Table) : Prop :=
  ∀ e ∈ part, ∃ p : Str × PKey, e = single p ∧ p.1 ≠ name ∧ find table p.1 p.2.name = some p.2.bytes

theorem Part.addKey {table part : Table} {name : Str} (h : Part table name part) {p : Str × PKey} (hname : p.1 ≠ name)
    (hp : find table p.1 p.2.name = some p.2.bytes) : Part table name (addKey part p.1 p.2) := by
  induction part with
  | nil =>
    intro e he
    obtain rfl := List.mem_singleton.mp he
    exact ⟨p, rfl, hname, hp⟩
  | cons e part ih =>
    have hrest : Part table name part := fun x hx => h x (by simp [hx])
    rw [KnownHosts.addKey]
    split
    · rename_i hhas
      intro x hx
      rcases List.mem_cons.mp hx with rfl | hx
      · obtain ⟨q, rfl, -, -⟩ := h e (by simp)
        obtain hq : p.1 = q.1 := by simpa [single] using (has_iff.mp hhas).1
        exact ⟨p, by simp [single, hq], hname, hp⟩
      · exact hrest x hx
    · intro x hx
      rcases List.mem_cons.mp hx with rfl | hx
      · exact h x (by simp)
      · exact ih hrest x hx

/-- A key that is found is found after another one is added. -/
theorem found_addKey {table : Table} {host type : Str} (h : (find table host type).isSome) (name : Str) (key : PKey) :
    (find (addKey table name key) host type).isSome := by
  induction table with
  | nil => simp [find] at h
  | cons e table ih =>
    rw [find_cons] at h
    rw [addKey]
    split
    · rename_i hhas
      rw [find_cons, has_key (has_iff.mp hhas).2]
      split <;> simp_all
    · rw [find_cons]
      split <;> simp_all

/-- One step of the loop that builds the table without a host -/
def keepOther (name : Str) (table : Table) (p : Str × PKey) : Table := if p.1 = name then table else addKey table p.1 p.2

/-- The loop adds the keys of a table for the other names, and finds all that it went through. -/
theorem keepOther_loop {table : Table} {name : Str} (ps : List (Str × PKey)) (part : Table)
    (hps : ∀ p ∈ ps, find table p.1 p.2.name = some p.2.bytes) (hpart : Part table name part) :
    Part table name (ps.foldl (keepOther name) part) ∧
      ∀ p : Str × PKey, p ∈ ps ∧ p.1 ≠ name ∨ (find part p.1 p.2.name).isSome →
        (find (ps.foldl (keepOther name) part) p.1 p.2.name).isSome := by
  induction ps generalizing part with
  | nil => exact ⟨hpart, fun p hp => by simpa using hp⟩
  | cons q ps ih =>
    have hrest : ∀ p ∈ ps, find table p.1 p.2.name = some p.2.bytes := fun p hp => hps p (by simp [hp])
    rw [List.foldl_cons]
    by_cases hq : q.1 = name
    · rw [keepOther, if_pos hq]
      obtain ⟨h₁, h₂⟩ := ih part hrest hpart
      refine ⟨h₁, fun p hp => h₂ p ?_⟩
      rcases hp with ⟨hp, hn⟩ | hp
      · rcases List.mem_cons.mp hp with rfl | hp
        · exact absurd hq hn
        · exact .inl ⟨hp, hn⟩
      · exact .inr hp
    · rw [keepOther, if_neg hq]
      obtain ⟨h₁, h₂⟩ := ih (addKey part q.1 q.2) hrest (hpart.addKey hq (hps q (by simp)))
      refine ⟨h₁, fun p hp => h₂ p ?_⟩
      rcases hp with ⟨hp, hn⟩ | hp
      · rcases List.mem_cons.mp hp with rfl | hp
        · exact .inr (by simp [find_addKey_self])
        · exact .inl ⟨hp, hn⟩
      · exact .inr (found_addKey hp _ _)

theorem remaining_eq (table : Table) (name : Str) : remaining table name = (pairs table).foldl (keepOther name) [] := rfl

/-- The table without a host has the other hosts' keys. -/
theorem find_remaining {table : Table} {name host : Str} (hne : host ≠ name) (type : Str) :
    find (remaining table name) host type = find table host type := by
  obtain ⟨hpart, hfound⟩ := keepOther_loop (pairs table) [] (fun p hp => (mem_pairs hp).choose_spec.2.2.2)
    (by simp [Part] : Part table name [])
  rw [remaining_eq]
  cases hf : find ((pairs table).foldl (keepOther name) []) host type with
  | some bytes =>
    obtain ⟨e, he, rfl⟩ := Option.map_eq_some_iff.mp hf
    obtain ⟨p, rfl, -, hp⟩ := hpart e (List.mem_of_find?_eq_some he)
    obtain ⟨rfl, rfl⟩ : host = p.1 ∧ p.2.name = type := by simpa [single] using has_iff.mp (List.find?_some he)
    exact hp.symm
  | none =>
    cases ht : find table host type with
    | none => rfl
    | some bytes =>
      obtain ⟨p, hp, rfl, rfl⟩ := pairs_complete ht
      have := hfound p (.inl ⟨hp, hne⟩)
      simp [hf] at this

theorem Sound.remaining {table : Table} (h : Sound lib table) (name : Str) : Sound lib (remaining table name) := by
  have hgen : ∀ (ps : List (Str × PKey)) (acc : Table), (∀ p ∈ ps, GoodName p.1 ∧ lib.genuine p.2) → Sound lib acc →
      Sound lib (ps.foldl (keepOther name) acc) := by
    intro ps
    induction ps with
    | nil => exact fun acc _ hacc => hacc
    | cons q ps ih =>
      intro acc hps hacc
      refine ih _ (fun p hp => hps p (by simp [hp])) ?_
      unfold keepOther
      split
      · exact hacc
      · exact hacc.addKey (hps q (by simp)).1 (hps q (by simp)).2
  exact hgen _ [] (fun p hp => h.pairs hp) (by simp [Sound])

/-! ## The other hosts -/

variable (lib)

/-- The operations that change the file -/
inductive Operation where
  | add (e : Endpoint) (key : PKey)
  | forget (e : Endpoint)

def Operation.name : Operation → Str
  | .add e _ => e.entryName
  | .forget e => e.entryName

def run (fault : Option Fault) (disk : Disk) : Operation → Bool × Disk
  | .add e key => add lib fault disk e key
  | .forget e => forget lib fault disk e

/-- Host names are written as they are in the file, and keys are genuine. -/
def Operation.Valid (op : Operation) : Prop :=
  GoodName op.name ∧ match op with
    | .add _ key => lib.genuine key
    | .forget _ => True

/-- The well-formed lines of a file are for good host names. -/
def WellFormed (file : Option (List Str)) : Prop := ∀ e ∈ entries lib (file.getD []), ∀ host ∈ e.hostnames, GoodName host

/-- The save raises before the new file takes the place of the old one. -/
def Midway (fault : Option Fault) : Prop := ∃ f, fault = some f ∧ f ≠ .chmod

/-- The other hosts keep their keys, and a save that raises midway leaves the old file. -/
def Framed (fault : Option Fault) (disk : Disk) (op : Operation) : Prop :=
  (Midway fault → (run lib fault disk op).2.path = disk.path) ∧
    OthersKept lib disk.path (run lib fault disk op).2.path op.name

/-- The lines before the first invalid one pin what all lines pin for the other hosts; and where a key is added, no
line that is the first of the key's type both for the host and for another one has another key. What is not there
cannot be forgotten, and nothing is written then. -/
def Harmless (file : Option (List Str)) : Operation → Prop
  | .add e key => AllRead lib file e.entryName ∧ ∀ host, host ≠ e.entryName →
      Shares (_load_unlocked lib file) e.entryName host key.name →
        find (_load_unlocked lib file) host key.name = some key.bytes
  | .forget e => e.entryName ∈ hostnames (_load_unlocked lib file) → AllRead lib file e.entryName

variable {lib}

theorem sound_load (hlib : lib.Lawful) {file : Option (List Str)} (h : WellFormed lib file) :
    Sound lib (_load_unlocked lib file) := by
  cases file with
  | none => simp [Sound, _load_unlocked]
  | some lines =>
    intro e he
    have hmem : e ∈ entries lib lines := (load_entries lib lines).subset he
    refine ⟨h e hmem, ?_⟩
    obtain ⟨l, -, hl⟩ := List.mem_filterMap.mp hmem
    unfold parsed at hl
    by_cases hblank : strip l = [] ∨ (strip l).head? = some '#'
    · simp [hblank] at hl
    · rw [if_neg hblank] at hl
      cases hline : lib.from_line (strip l) with
      | entry e' =>
        obtain rfl : e' = e := by simpa [hline] using hl
        exact hlib.reads_genuine _ _ hline
      | ignored => simp [hline] at hl
      | invalid => simp [hline] at hl

theorem save_midway {fault : Option Fault} (h : Midway fault) (disk : Disk) (table : Table) :
    (_atomic_save lib fault disk table).2.path = disk.path := by
  obtain ⟨f, rfl, hf⟩ := h
  cases f <;> first | rfl | exact absurd rfl hf

theorem save_complete {fault : Option Fault} (h : ¬ Midway fault) (disk : Disk) (table : Table) :
    (_atomic_save lib fault disk table).2.path = some ((pairs table).map fun p => writtenLine lib p.1 p.2) := by
  cases fault with
  | none => rfl
  | some f =>
    by_cases hf : f = .chmod
    · subst hf
      rfl
    · exact absurd ⟨f, rfl, hf⟩ h

theorem othersKept_refl (file : Option (List Str)) (name : Str) : OthersKept lib file file name :=
  fun _ _ _ _ h => h

/-- After a complete save the file pins what the table says. -/
theorem othersKept_written (hlib : lib.Lawful) {table : Table} (h : Sound lib table) (file : Option (List Str)) (name : Str) :
    OthersKept lib file (some ((pairs table).map fun p => writtenLine lib p.1 p.2)) name ↔
      ∀ host, host ≠ name → ∀ type bytes, pinned lib file host type = some bytes → find table host type = some bytes := by
  simp only [OthersKept, pinned_written hlib h]

theorem add_kept_iff {file : Option (List Str)} {name : Str} {key : PKey} :
    (∀ host, host ≠ name → ∀ type bytes, pinned lib file host type = some bytes →
        find (addKey (_load_unlocked lib file) name key) host type = some bytes) ↔
      AllRead lib file name ∧ ∀ host, host ≠ name → Shares (_load_unlocked lib file) name host key.name →
        find (_load_unlocked lib file) host key.name = some key.bytes := by
  constructor
  · intro h
    refine ⟨fun host hne type bytes hp => ?_, fun host hne hs => ?_⟩
    · have hadd := h host hne type bytes hp
      rcases find_addKey_other hne (_load_unlocked lib file) key type with ⟨rfl, hs, hf⟩ | ⟨-, hf⟩
      · -- the line is shared, so the host had a key of the type, and it is the pinned one
        obtain ⟨e, he, -, hhost⟩ := hs
        cases hread : find (_load_unlocked lib file) host key.name with
        | some old => rw [← hp, pinned_of_load lib hread]
        | none =>
          have := List.find?_eq_none.mp (Option.map_eq_none_iff.mp hread) e (List.mem_of_find?_eq_some he)
          exact absurd hhost this
      · rw [← hf, hadd]
    · rcases find_addKey_other hne (_load_unlocked lib file) key key.name with ⟨-, -, hf⟩ | ⟨hno, -⟩
      · obtain ⟨e, he, -, hhost⟩ := hs
        cases hread : find (_load_unlocked lib file) host key.name with
        | some old =>
          have hadd := h host hne key.name old (pinned_of_load lib hread)
          rw [← hadd, hf]
        | none =>
          have := List.find?_eq_none.mp (Option.map_eq_none_iff.mp hread) e (List.mem_of_find?_eq_some he)
          exact absurd hhost this
      · exact absurd ⟨rfl, hs⟩ hno
  · rintro ⟨hread, hshare⟩ host hne type bytes hp
    have hload := hread host hne type bytes hp
    rcases find_addKey_other hne (_load_unlocked lib file) key type with ⟨rfl, hs, hf⟩ | ⟨-, hf⟩
    · rw [hf, ← hshare host hne hs, hload]
    · rw [hf, hload]

def ed25519 : Str := lit "ssh-ed25519"

def alphabet : Str := lit "ABCDEFGHIJKLMNOPQRSTUVWXYZabcdefghijklmnopqrstuvwxyz0123456789+/="

/-- Characters of base64 in groups of four -/
def isBase64 (b : Str) : Bool := b ≠ [] && b.length % 4 = 0 && b.all (· ∈ alphabet)

/-- A line of host names, type and key, of the one known type -/
def fromLine (l : Str) : Line :=
  let names := l.takeWhile (· ≠ ' ')
  let type := (l.drop (names.length + 1)).takeWhile (· ≠ ' ')
  let key := (l.drop (names.length + 1)).drop (type.length + 1)
  if key = [] then .ignored
  else if type ≠ ed25519 then .ignored
  else if isBase64 key then .entry ⟨names.splitOn ',', ⟨type, key⟩⟩
  else .invalid

/-- A library that knows one type of key, with the keys as their base64 text -/
def ed25519Only : Paramiko := ⟨fromLine, PKey.bytes, fun key => key.name = ed25519 ∧ isBase64 key.bytes = true⟩

theorem takeWhile_word {w : Str} (hw : ' ' ∉ w) (rest : Str) : (w ++ ' ' :: rest).takeWhile (· ≠ ' ') = w := by
  have hall : ∀ c ∈ w, decide (c ≠ ' ') = true := by
    intro c hc
    simp only [decide_eq_true_eq]
    rintro rfl
    exact hw hc
  rw [List.takeWhile_append_of_pos hall]
  simp

theorem isBase64_iff {b : Str} : isBase64 b = true ↔ b ≠ [] ∧ b.length % 4 = 0 ∧ ∀ c ∈ b, c ∈ alphabet := by
  simp [isBase64, and_assoc]

theorem fromLine_words {host : Str} {key : PKey} (hblank : ' ' ∉ host) (hcomma : ',' ∉ host) (hname : key.name = ed25519)
    (hkey : isBase64 key.bytes = true) : fromLine (host ++ ' ' :: (key.name ++ ' ' :: key.bytes)) = .entry ⟨[host], key⟩ := by
  have htype : ' ' ∉ key.name := by
    rw [hname]
    with_unfolding_all decide
  have hnames : host.splitOn ',' = [host] := by
    have h : ([','].intercalate [host]).splitOn ',' = [host] :=
      List.splitOn_intercalate ',' (by simpa using hcomma) (by simp)
    simpa using h
  have hdrop (w rest : Str) : (w ++ ' ' :: rest).drop (w.length + 1) = rest := by simp [← List.drop_drop]
  simp only [fromLine, takeWhile_word hblank, hdrop, takeWhile_word htype]
  rw [if_neg (isBase64_iff.mp hkey).1, if_neg (by simpa using hname), if_pos hkey, hnames]

theorem ed25519Only_lawful : ed25519Only.Lawful where
  word key hkey := by
    obtain ⟨hne, -, hchars⟩ := isBase64_iff.mp hkey.2
    have halphabet : ∀ c ∈ alphabet, isSpace c = false := forall_mem_of_all (by with_unfolding_all decide)
    exact ⟨hne, fun c hc => halphabet c (hchars c hc)⟩
  read_back host key hhost hkey := by
    have hblank : ' ' ∉ host := fun h => by simpa [isSpace] using (hhost.one_word ' ' h).1
    have hcomma : ',' ∉ host := fun h => (hhost.one_word ',' h).2 rfl
    have hline : writtenLine ed25519Only host key = host ++ ' ' :: (key.name ++ ' ' :: key.bytes) := by
      simp [writtenLine, ed25519Only]
    rw [hline]
    exact fromLine_words hblank hcomma hkey.1 hkey.2
  reads_genuine line e h := by
    replace h : fromLine line = .entry e := h
    simp only [fromLine] at h
    split at h
    · cases h
    · split at h
      · cases h
      · rename_i htype
        split at h
        · rename_i hkey
          cases h
          exact ⟨by simpa using htype, hkey⟩
        · cases h

def router : Str := lit "router ssh-ed25519 AAAAC3NzaC1lZDI1NTE5AAAAIAEBAQEBAQEBAQEBAQEBAQEBAQEBAQEBAQEBAQEBAQEB"

/-- The key of this line has been cut off. -/
def torn : Str := lit "switch ssh-ed25519 AAAAC3NzaC1lZDI1NTE5AAAAIAICA"

def oldKey : PKey := ⟨ed25519, lit "AAAAC3NzaC1lZDI1NTE5AAAAIAEBAQEBAQEBAQEBAQEBAQEBAQEBAQEBAQEBAQEBAQEB"⟩

def newKey : PKey := ⟨ed25519, lit "AAAAC3NzaC1lZDI1NTE5AAAAIAICAgICAgICAgICAgICAgICAgICAgICAgICAgICAgIC"⟩

def addFirewall : Operation := .add ⟨lit "firewall", 22⟩ newKey

theorem addFirewall_valid : addFirewall.Valid ed25519Only := by
  refine ⟨⟨by with_unfolding_all decide, by with_unfolding_all decide, forall_mem_of_all
    (by with_unfolding_all decide)⟩, rfl, by with_unfolding_all decide⟩

end KnownHosts
