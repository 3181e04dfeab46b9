import Ngcorion.Octets
import Ngcorion.Dict
import Mathlib.Data.Rat.Defs
import Mathlib.Algebra.Order.Floor.Ring

/-!
# The .ngbak container

`Writer` streams entries through one zlib stream into authenticated chunks,
`Reader` opens such a file and walks its entries. The libraries behind them
(scrypt, HMAC, SHA-256, AES-GCM, zlib, JSON, base64) are the parameters of a
`Platform`: a stateful object is what it answers after a history of calls.
-/
namespace Container

open Octets

/-! ## Libraries -/

/-- A value of a JSON text. A number with a fraction or an exponent is a
float: a rational, an infinity or not a number. -/
inductive Json where
  | null
  | bool (b : Bool)
  | int (i : Int)
  | float (q : Rat)
  | infinite (negative : Bool)
  | nan
  | str (s : String)
  | arr (items : List Json)
  | obj (fields : List (String × Json))

/-- What `json.loads(raw.decode("utf-8"))` does: a value, a `ValueError`, or a
`RecursionError` on a text that is nested too deep. -/
inductive Loaded where
  | value (j : Json)
  | invalid
  | tooDeep

structure Platform where
  /-- `hashlib.scrypt(password, salt, n, r, p)`; nothing for parameters it refuses with a `ValueError`
  or a `TypeError` -/
  scrypt : Bytes → Bytes → Int → Int → Int → Option Bytes
  hmac : Bytes → Bytes → Bytes
  sha256 : Bytes → Bytes
  /-- key, nonce, plaintext, associated data -/
  encrypt : Bytes → Bytes → Bytes → Bytes → Bytes
  /-- key, nonce, ciphertext, associated data; nothing for an `InvalidTag` -/
  decrypt : Bytes → Bytes → Bytes → Bytes → Option Bytes
  /-- `compress` and `flush` of a compressor after the inputs it already had -/
  compress : List Bytes → Bytes → Bytes
  flush : List Bytes → Bytes
  /-- `decompress` and `flush` of a decompressor; nothing for a `zlib.error` -/
  decompress : List Bytes → Bytes → Option Bytes
  unflush : List Bytes → Bytes
  dumps : List (String × Json) → Option Bytes
  loads : Bytes → Loaded
  b64encode : Bytes → String
  b64decode : String → Option Bytes
  /-- `int(s)` of a text; nothing for a `ValueError` -/
  int : String → Option Int

/-- `struct.pack` of one big endian number; nothing for a `struct.error`. -/
def structPack (width n : Nat) : Option Bytes := if n < 256 ^ width then some (pack width n) else none

def hexdigest (digest : Bytes) : List Char :=
  digest.flatMap (fun b => [Nat.digitChar (b.toNat / 16), Nat.digitChar (b.toNat % 16)])

def MAGIC : Bytes := [0x4E, 0x47, 0x42, 0x41, 0x4B, 0x00, 0x01, 0x0A]

def FORMAT : Int := 1

/-- Plaintext bytes per encrypted chunk. -/
def CHUNK : Nat := 1048576

/-- Sanity bound when reading. -/
def MAX_CHUNK : Nat := CHUNK + 4096

def MAX_HEADER : Nat := 65536

def SCRYPT_N : Int := 32768
def SCRYPT_R : Int := 8
def SCRYPT_P : Int := 1

def CHECK_LABEL : Bytes := encode "ngcorion-backup-check"

variable (p : Platform)

def derive_key (passphrase : String) (salt : Bytes) (n r q : Int) : Option Bytes :=
  p.scrypt (encode passphrase) salt n r q

def _check_value (key : Bytes) : Bytes := (p.hmac key CHECK_LABEL).take 16

def flag (final : Bool) : UInt8 := if final then 1 else 0

def _aad (headerDigest : Bytes) (index : Nat) (final : Bool) : Option Bytes :=
  (structPack 8 index).map (fun raw => headerDigest ++ (raw ++ [flag final]))

/-! ## Writing -/

inductive WriteError where
  | entryOpen (name : String)
  | duplicate (name : String)
  | noOpenEntry
  | struct
  | attribute
  | header
  | kdf

/-- The size and the digest of an entry. -/
structure Info where
  size : Nat
  sha256 : List Char

/-- One call of `encrypt`. -/
structure Seal where
  nonce : Bytes
  plain : Bytes
  aad : Bytes
  deriving DecidableEq

/-- The state of a `Writer`; `hashed` is what the hash of the open entry has been
given, `sealed` keeps the calls of `encrypt` for statements about the cipher. -/
structure Writer where
  key : Bytes
  digest : Bytes
  out : Bytes
  zipped : List Bytes
  pending : Bytes
  index : Nat
  entry : Option String
  hashed : Option Bytes
  entrySize : Nat
  entries : List (Option String × Info)
  size : Nat
  closed : Bool
  sealed : List Seal

abbrev Writing := Except WriteError Writer

/-- The header as it is written. -/
def headOf (salt key : Bytes) (header : List (String × Json)) : List (String × Json) :=
  let kdf := [("name", .str "scrypt"), ("salt", .str (p.b64encode salt)), ("n", .int SCRYPT_N), ("r", .int SCRYPT_R),
    ("p", .int SCRYPT_P)]
  let head := Dict.set header "format" (.int FORMAT)
  let head := Dict.set head "kdf" (.obj kdf)
  let head := Dict.set head "cipher" (.str "AES-256-GCM")
  let head := Dict.set head "compression" (.str "zlib")
  Dict.set head "check" (.str (p.b64encode (_check_value p key)))

/-- `Writer.__init__`, with the salt that `os.urandom` gives. -/
def Writer.init (salt : Bytes) (passphrase : String) (header : List (String × Json)) : Writing :=
  match derive_key p passphrase salt SCRYPT_N SCRYPT_R SCRYPT_P with
  | none => .error .kdf
  | some key =>
    match p.dumps (headOf p salt key header) with
    | none => .error .header
    | some raw =>
      match structPack 4 raw.length with
      | none => .error .struct
      | some size =>
        let start := MAGIC ++ (size ++ raw)
        .ok { key := key, digest := p.sha256 start, out := start, zipped := [], pending := [], index := 0,
              entry := none, hashed := none, entrySize := 0, entries := [], size := start.length, closed := false,
              sealed := [] }

/-- The frame of a chunk in the file. -/
def frame (final : Bool) (nonce ct : Bytes) : Option Bytes :=
  (structPack 4 ct.length).map (fun size => size ++ (flag final :: (nonce ++ ct)))

/-- One round of `_seal`: the next chunk, with the nonce that `os.urandom` gives for it. -/
def Writer.sealChunk (nonces : Nat → Bytes) (last : Bool) (w : Writer) : Writing :=
  let take := w.pending.take CHUNK
  match _aad w.digest w.index last with
  | none => .error .struct
  | some aad =>
    match frame last (nonces w.index) (p.encrypt w.key (nonces w.index) take aad) with
    | none => .error .struct
    | some bytes =>
      .ok { w with pending := w.pending.drop CHUNK, out := w.out ++ bytes, size := w.size + bytes.length,
                   index := w.index + 1, sealed := w.sealed ++ [⟨nonces w.index, take, aad⟩] }

/-- The rounds of `_seal`; every round but the last takes a whole chunk, so there
are at most as many as pending bytes. -/
def Writer.sealRounds (nonces : Nat → Bytes) (final : Bool) : Nat → Writer → Writing
  | 0, w => .ok w
  | rounds + 1, w =>
    if CHUNK ≤ w.pending.length ∨ final = true then
      let last := final && w.pending.drop CHUNK = []
      match w.sealChunk p nonces last with
      | .error e => .error e
      | .ok w' => if last then .ok w' else sealRounds nonces final rounds w'
    else .ok w

def Writer._seal (nonces : Nat → Bytes) (final : Bool) (w : Writer) : Writing :=
  w.sealRounds p nonces final (w.pending.length + 1)

def Writer._plain (nonces : Nat → Bytes) (data : Bytes) (w : Writer) : Writing :=
  let w := { w with pending := w.pending ++ p.compress w.zipped data, zipped := w.zipped ++ [data] }
  if CHUNK ≤ w.pending.length then w._seal p nonces false else .ok w

def E : UInt8 := 0x45
def D : UInt8 := 0x44
def Z : UInt8 := 0x5A
def X : UInt8 := 0x58

def Writer.begin (nonces : Nat → Bytes) (name : String) (w : Writer) : Writing :=
  match w.entry with
  | some other => .error (.entryOpen other)
  | none =>
    if some name ∈ Dict.keys w.entries then .error (.duplicate name)
    else
      match structPack 2 (encode name).length with
      | none => .error .struct
      | some size =>
        (w._plain p nonces (E :: (size ++ encode name))).map
          (fun w => { w with entry := some name, hashed := some [], entrySize := 0 })

/-- One part of a `write`. -/
def Writer.writePart (nonces : Nat → Bytes) (part : Bytes) (w : Writer) : Writing :=
  match structPack 4 part.length with
  | none => .error .struct
  | some size =>
    (w._plain p nonces (D :: (size ++ part))).map
      (fun w => { w with hashed := w.hashed.map (· ++ part), entrySize := w.entrySize + part.length })

def Writer.writeParts (nonces : Nat → Bytes) : List Bytes → Writer → Writing
  | [], w => .ok w
  | part :: parts, w => (w.writePart p nonces part).bind (writeParts nonces parts)

def Writer.write (nonces : Nat → Bytes) (data : Bytes) (w : Writer) : Writing :=
  match w.entry with
  | none => .error .noOpenEntry
  | some _ => w.writeParts p nonces (pieces CHUNK data)

/-- `Writer.end`. It does not check that an entry is open. -/
def Writer.endEntry (nonces : Nat → Bytes) (w : Writer) : Writing :=
  (w._plain p nonces [Z]).bind fun w =>
    match w.hashed with
    | none => .error .attribute
    | some data =>
      .ok { w with entries := Dict.set w.entries w.entry ⟨w.entrySize, hexdigest (p.sha256 data)⟩, entry := none }

/-- `Writer.close`; the returned digest is that of the whole file. -/
def Writer.close (nonces : Nat → Bytes) (w : Writer) : Except WriteError (Writer × List Char) :=
  match w.entry with
  | some other => .error (.entryOpen other)
  | none =>
    (w._plain p nonces [X]).bind fun w =>
      (Writer._seal p nonces true { w with pending := w.pending ++ p.flush w.zipped }).map fun w =>
        ({ w with closed := true }, hexdigest (p.sha256 w.out))

/-- A call of the writer between its creation and `close`. -/
inductive Call where
  | begin (name : String)
  | write (data : Bytes)
  | endEntry

def Writer.call (nonces : Nat → Bytes) : Call → Writer → Writing
  | .begin name, w => w.begin p nonces name
  | .write data, w => w.write p nonces data
  | .endEntry, w => w.endEntry p nonces

def Writer.calls (nonces : Nat → Bytes) : List Call → Writer → Writing
  | [], w => .ok w
  | c :: cs, w => (w.call p nonces c).bind (calls nonces cs)

/-- An entry: its name, and its contents as they are passed to `write`, call by call. -/
structure Entry where
  name : String
  writes : List Bytes

def Entry.contents (e : Entry) : Bytes := e.writes.flatten

def Entry.calls (e : Entry) : List Call := .begin e.name :: (e.writes.map Call.write ++ [Call.endEntry])

/-- A whole file: create, write every entry, close. -/
def writeFile (nonces : Nat → Bytes) (salt : Bytes) (passphrase : String) (header : List (String × Json))
    (es : List Entry) : Except WriteError (Writer × List Char) :=
  (Writer.init p salt passphrase header).bind fun w =>
    (w.calls p nonces (es.flatMap Entry.calls)).bind fun w => w.close p nonces

/-! ## Reading -/

/-- The reasons of a `BackupFormatError`. -/
inductive Refusal where
  | notABackup
  | cutShort
  | headerTooLarge
  | headerDamaged
  | unsupportedFormat
  | damaged
  | chunkFailed (index : Nat)
  | dataAfterBackup
  | endsInEntry
  | archiveDamaged
  | dataAfterArchive
  deriving DecidableEq

/-- How reading ends early: a `BackupFormatError`, a `WrongPassphrase`, or an
exception of a library that nothing handles. -/
inductive Error where
  | format (reason : Refusal)
  | passphrase
  | attribute
  | overflow
  | recursion
  | unicode
  | zlib
  | struct
  deriving DecidableEq

/-- `header == FORMAT`, where `True` and `1.0` are also equal to `1`. -/
def isFormat : Option Json → Bool
  | some (.int i) => i = FORMAT
  | some (.bool b) => b
  | some (.float q) => q = FORMAT
  | _ => false

/-- The header text of a file, and what follows it. -/
def headerText (file : Bytes) : Except Error (Bytes × Bytes) :=
  let magic := file.take MAGIC.length
  let afterMagic := file.drop MAGIC.length
  let sizeRaw := afterMagic.take 4
  let afterSize := afterMagic.drop 4
  let raw := afterSize.take (unpack sizeRaw)
  if magic ≠ MAGIC then .error (.format .notABackup)
  else if sizeRaw.length ≠ 4 then .error (.format .cutShort)
  else if unpack sizeRaw > MAX_HEADER then .error (.format .headerTooLarge)
  else if raw.length ≠ unpack sizeRaw then .error (.format .cutShort)
  else .ok (raw, afterSize.drop (unpack sizeRaw))

/-- The header, the digest the chunks are bound to, and the rest of the file. -/
def read_header (file : Bytes) : Except Error (List (String × Json) × Bytes × Bytes) :=
  match headerText file with
  | .error e => .error e
  | .ok (raw, rest) =>
    match p.loads raw with
    | .invalid => .error (.format .headerDamaged)
    | .tooDeep => .error .recursion
    | .value (.obj header) =>
      if isFormat (Dict.get header "format") then
        .ok (header, p.sha256 (file.take (MAGIC.length + 4 + raw.length)), rest)
      else .error (.format .unsupportedFormat)
    | .value _ => .error .attribute

/-- `header.get("kdf") or {}`, indexed with a key: nothing where the source gets a
`KeyError` or a `TypeError`. -/
def kdfField (header : List (String × Json)) (key : String) : Option Json :=
  match Dict.get header "kdf" with
  | some (.obj fields) => Dict.get fields key
  | _ => none

/-- `int(value)`: the number, an exception that `unlock` handles, or an `OverflowError`. -/
inductive Converted where
  | number (i : Int)
  | handled
  | overflow
  deriving DecidableEq

/-- `int` of a float drops the fraction. -/
def truncate (q : Rat) : Int := if 0 ≤ q then q.floor else q.ceil

def pyInt : Option Json → Converted
  | some (.int i) => .number i
  | some (.bool b) => .number (if b then 1 else 0)
  | some (.float q) => .number (truncate q)
  | some (.infinite _) => .overflow
  | some (.str s) => match p.int s with
    | some i => .number i
    | none => .handled
  | _ => .handled

/-- `base64.b64decode` of a JSON value. -/
def pyB64decode : Option Json → Option Bytes
  | some (.str s) => p.b64decode s
  | _ => none

/-- The three numbers of the key derivation, converted in order. -/
def kdfNumbers (header : List (String × Json)) : Except Error (Int × Int × Int) :=
  match pyInt p (kdfField header "n") with
  | .handled => .error (.format .headerDamaged)
  | .overflow => .error .overflow
  | .number n =>
    match pyInt p (kdfField header "r") with
    | .handled => .error (.format .headerDamaged)
    | .overflow => .error .overflow
    | .number r =>
      match pyInt p (kdfField header "p") with
      | .handled => .error (.format .headerDamaged)
      | .overflow => .error .overflow
      | .number q => .ok (n, r, q)

/-- The key of a file, checked against its header. -/
def unlock (header : List (String × Json)) (passphrase : String) : Except Error Bytes :=
  match pyB64decode p (kdfField header "salt") with
  | none => .error (.format .headerDamaged)
  | some salt =>
    match kdfNumbers p header with
    | .error e => .error e
    | .ok (n, r, q) =>
      match derive_key p passphrase salt n r q with
      | none => .error (.format .headerDamaged)
      | some key =>
        match pyB64decode p (Dict.get header "check") with
        | none => .error (.format .headerDamaged)
        | some expected => if _check_value p key = expected then .ok key else .error .passphrase

/-- A generator without input: what it yields, and how it ends after that. -/
structure Produced where
  items : List Bytes
  ending : Except Error Unit

/-- `if out: yield out`, before everything else. -/
def Produced.yields (out : Bytes) (later : Produced) : Produced :=
  if out = [] then later else { later with items := out :: later.items }

/-- What stands in the file where the next chunk is expected. -/
structure Framed where
  final : Bool
  nonce : Bytes
  ct : Bytes
  rest : Bytes

def nextFrame (file : Bytes) : Except Error Framed :=
  let length := unpack (file.take 4)
  let body := file.drop 5
  match file.drop 4 with
  | [] => .error (.format .cutShort)
  | final :: _ =>
    if length > MAX_CHUNK ∨ ¬ (final = 0 ∨ final = 1) then .error (.format .damaged)
    else
      let nonce := body.take 12
      let ct := (body.drop 12).take length
      if nonce.length ≠ 12 ∨ ct.length ≠ length then .error (.format .cutShort)
      else .ok ⟨final = 1, nonce, ct, (body.drop 12).drop length⟩

theorem nextFrame_rest {file : Bytes} {f : Framed} (h : nextFrame file = .ok f) : f.rest.length < file.length := by
  unfold nextFrame at h
  cases hd : file.drop 4 with
  | nil => simp [hd] at h
  | cons final rest =>
    simp only [hd] at h
    have hlen : 4 < file.length := by
      by_contra hn
      rw [List.drop_eq_nil_of_le (by omega)] at hd
      simp at hd
    split_ifs at h
    cases h
    simp only [List.length_drop]
    omega

/-- `Reader._decrypted`, from a chunk on: `fed` is what the decompressor had before. -/
def decrypted (key digest : Bytes) (index : Nat) (fed : List Bytes) (file : Bytes) : Produced :=
  match _h : nextFrame file with
  | .error e => ⟨[], .error e⟩
  | .ok f =>
    match _aad digest index f.final with
    | none => ⟨[], .error .struct⟩
    | some aad =>
      match p.decrypt key f.nonce f.ct aad with
      | none => ⟨[], .error (.format (.chunkFailed index))⟩
      | some plain =>
        match p.decompress fed plain with
        | none => ⟨[], .error .zlib⟩
        | some out =>
          .yields out
            (if f.final then
              .yields (p.unflush (fed ++ [plain]))
                ⟨[], if f.rest = [] then .ok () else .error (.format .dataAfterBackup)⟩
             else decrypted key digest (index + 1) (fed ++ [plain]) f.rest)
  termination_by file.length
  decreasing_by exact nextFrame_rest _h

/-- The state of a `Reader`: the unread part of its buffer, what the decrypting
generator still has to give, and the digests of the entries read so far. -/
structure Reader where
  rest : Bytes
  plain : List Bytes
  ending : Except Error Unit
  entryHashes : List (String × Info)

/-- The plaintext that is still to be read. -/
def Reader.stream (r : Reader) : Bytes := r.rest ++ r.plain.flatten

/-- `Reader.__init__` -/
def Reader.open (file : Bytes) (passphrase : String) : Except Error Reader :=
  match read_header p file with
  | .error e => .error e
  | .ok (header, digest, rest) =>
    match unlock p header passphrase with
    | .error e => .error e
    | .ok key =>
      let produced := decrypted p key digest 0 [] rest
      .ok ⟨[], produced.items, produced.ending, []⟩

/-- The loop of `_take` over what the generator yields. -/
def takeFrom (ending : Except Error Unit) (n : Nat) (rest : Bytes) : List Bytes →
    Except Error (Bytes × Bytes × List Bytes)
  | [] =>
    if n ≤ rest.length then .ok (rest.take n, rest.drop n, [])
    else match ending with
      | .error e => .error e
      | .ok _ => .error (.format .endsInEntry)
  | more :: plain =>
    if n ≤ rest.length then .ok (rest.take n, rest.drop n, more :: plain)
    else takeFrom ending n (rest ++ more) plain

def Reader._take (n : Nat) (r : Reader) : Except Error (Bytes × Reader) :=
  (takeFrom r.ending n r.rest r.plain).map (fun t => (t.1, { r with rest := t.2.1, plain := t.2.2 }))

/-- The reader after it has taken the next `n` bytes of its stream. -/
structure After (n : Nat) (r r' : Reader) : Prop where
  enough : n ≤ r.stream.length
  stream : r'.stream = r.stream.drop n
  plain : r'.plain <:+ r.plain
  ending : r'.ending = r.ending
  hashes : r'.entryHashes = r.entryHashes

/-- The error of a stream that ends too early. -/
def short : Except Error Unit → Error
  | .error e => e
  | .ok _ => .format .endsInEntry

theorem takeFrom_spec (ending : Except Error Unit) (n : Nat) (rest : Bytes) (plain : List Bytes) :
    if n ≤ (rest ++ plain.flatten).length then
      ∃ rest' plain', takeFrom ending n rest plain = .ok ((rest ++ plain.flatten).take n, rest', plain') ∧
        rest' ++ plain'.flatten = (rest ++ plain.flatten).drop n ∧ plain' <:+ plain
    else takeFrom ending n rest plain = .error (short ending) := by
  induction plain generalizing rest with
  | nil =>
    simp only [List.flatten_nil, List.append_nil, takeFrom]
    split
    · exact ⟨rest.drop n, [], by simp⟩
    · cases ending <;> rfl
  | cons more plain ih =>
    have hi := ih (rest ++ more)
    rw [takeFrom]
    by_cases hn : n ≤ rest.length
    · rw [if_pos (by rw [List.length_append]; omega), if_pos hn]
      refine ⟨rest.drop n, more :: plain, ?_, ?_, List.suffix_refl _⟩
      · rw [List.take_append_of_le_length hn]
      · rw [List.drop_append_of_le_length hn]
    · rw [if_neg hn, List.flatten_cons, ← List.append_assoc]
      split
      · rename_i hlen
        rw [if_pos hlen] at hi
        obtain ⟨rest', plain', htake, hrest, hsuffix⟩ := hi
        exact ⟨rest', plain', htake, hrest, hsuffix.trans (List.suffix_cons more plain)⟩
      · rename_i hlen
        rwa [if_neg hlen] at hi

theorem take_enough (r : Reader) (n : Nat) (h : n ≤ r.stream.length) :
    ∃ r', r._take n = .ok (r.stream.take n, r') ∧ After n r r' := by
  have hspec := takeFrom_spec r.ending n r.rest r.plain
  rw [← Reader.stream, if_pos h] at hspec
  obtain ⟨rest', plain', htake, hrest, hsuffix⟩ := hspec
  refine ⟨{ r with rest := rest', plain := plain' }, ?_, h, hrest, hsuffix, rfl, rfl⟩
  rw [Reader._take, htake]
  rfl

theorem take_short (r : Reader) (n : Nat) (h : r.stream.length < n) : r._take n = .error (short r.ending) := by
  have hspec := takeFrom_spec r.ending n r.rest r.plain
  rw [← Reader.stream, if_neg (by omega)] at hspec
  rw [Reader._take, hspec]
  rfl

theorem take_ok {r r' : Reader} {n : Nat} {data : Bytes} (h : r._take n = .ok (data, r')) :
    data = r.stream.take n ∧ After n r r' := by
  by_cases hn : n ≤ r.stream.length
  · obtain ⟨r₁, htake, hafter⟩ := take_enough r n hn
    rw [htake] at h
    cases h
    exact ⟨rfl, hafter⟩
  · rw [take_short r n (by omega)] at h
    simp at h

theorem After.length {n : Nat} {r r' : Reader} (h : After n r r') : r'.stream.length + n = r.stream.length := by
  rw [h.stream, List.length_drop]
  have := h.enough
  omega

theorem bind_ok {ε α β : Type} {x : Except ε α} {f : α → Except ε β} {b : β} (h : x.bind f = .ok b) :
    ∃ a, x = .ok a ∧ f a = .ok b := by
  cases x with
  | error e => simp [Except.bind] at h
  | ok a => exact ⟨a, rfl, h⟩

theorem map_ok {ε α β : Type} {x : Except ε α} {f : α → β} {b : β} (h : x.map f = .ok b) :
    ∃ a, x = .ok a ∧ f a = b := by
  cases x with
  | error e => simp [Except.map] at h
  | ok a => exact ⟨a, rfl, by simpa [Except.map] using h⟩

/-- What a generator of blocks gives next: a block, or the end of its entry. -/
inductive Block where
  | block (data : Bytes) (r : Reader)
  | finished (r : Reader)

/-- The next step of `Reader._blocks`, where the hash has been given `hashed`. -/
def Reader.nextBlock (name : String) (hashed : Bytes) (r : Reader) : Except Error Block :=
  (r._take 1).bind fun (tag, r) =>
    if tag = [D] then
      (r._take 4).bind fun (raw, r) =>
        if unpack raw > CHUNK then .error (.format .archiveDamaged)
        else (r._take (unpack raw)).map fun (data, r) => .block data r
    else if tag = [Z] then
      let info : Info := ⟨hashed.length, hexdigest (p.sha256 hashed)⟩
      .ok (.finished { r with entryHashes := Dict.set r.entryHashes name info })
    else .error (.format .archiveDamaged)

/-- The next step of `Reader.entries`: the name of an entry, or the end of the archive. -/
def Reader.nextEntry (r : Reader) : Except Error (Option String × Reader) :=
  (r._take 1).bind fun (tag, r) =>
    if tag = [X] then
      if r.rest ≠ [] ∨ r.plain ≠ [] then .error (.format .dataAfterArchive)
      else match r.ending with
        | .error e => .error e
        | .ok _ => .ok (none, r)
    else if tag = [E] then
      (r._take 2).bind fun (raw, r) =>
        (r._take (unpack raw)).bind fun (raw, r) =>
          match decode raw with
          | none => .error .unicode
          | some name => .ok (some name, r)
    else .error (.format .archiveDamaged)

theorem nextBlock_shorter {name : String} {hashed : Bytes} {r : Reader} {b : Block}
    (h : r.nextBlock p name hashed = .ok b) :
    match b with
    | .block _ r' => r'.stream.length < r.stream.length
    | .finished r' => r'.stream.length < r.stream.length := by
  obtain ⟨⟨tag, r₁⟩, htag, h⟩ := bind_ok h
  have hlen₁ := (take_ok htag).2.length
  dsimp only at h
  split_ifs at h
  · obtain ⟨⟨raw, r₂⟩, hraw, h⟩ := bind_ok h
    have hlen₂ := (take_ok hraw).2.length
    dsimp only at h
    split_ifs at h
    obtain ⟨⟨data, r₃⟩, hdata, h⟩ := map_ok h
    have hlen₃ := (take_ok hdata).2.length
    subst h
    dsimp only
    omega
  · cases h
    dsimp only
    have hsame : ∀ hashes, Reader.stream { r₁ with entryHashes := hashes } = r₁.stream := fun _ => rfl
    rw [hsame]
    omega

theorem nextEntry_shorter {r r' : Reader} {name : Option String} (h : r.nextEntry = .ok (name, r')) :
    r'.stream.length < r.stream.length := by
  obtain ⟨⟨tag, r₁⟩, htag, h⟩ := bind_ok h
  have hlen₁ := (take_ok htag).2.length
  dsimp only at h
  split_ifs at h
  · cases hending : r₁.ending with
    | error e => simp [hending] at h
    | ok u =>
      simp only [hending] at h
      cases h
      omega
  · obtain ⟨⟨raw, r₂⟩, hraw, h⟩ := bind_ok h
    have hlen₂ := (take_ok hraw).2.length
    obtain ⟨⟨raw', r₃⟩, hraw', h⟩ := bind_ok h
    have hlen₃ := (take_ok hraw').2.length
    dsimp only at h hlen₃
    cases hdecode : decode raw' with
    | none => simp [hdecode] at h
    | some s =>
      simp only [hdecode] at h
      cases h
      omega

/-- An entry as the caller sees it: the blocks it read, and whether it read them to the end. -/
structure Seen where
  name : String
  blocks : List Bytes
  exhausted : Bool

/-- The blocks of an entry. The caller asks for another block as long as `more`
wants one after those it has seen; `entries` reads what the caller leaves. -/
def Reader.readBlocks (more : List Bytes → Bool) (name : String) (reading : Bool) (blocks : List Bytes)
    (hashed : Bytes) (r : Reader) : Except Error (Seen × Reader) :=
  match _h : r.nextBlock p name hashed with
  | .error e => .error e
  | .ok (.finished r') => .ok (⟨name, blocks, reading && more blocks⟩, r')
  | .ok (.block data r') =>
    readBlocks more name (reading && more blocks) (if reading && more blocks then blocks ++ [data] else blocks)
      (hashed ++ data) r'
  termination_by r.stream.length
  decreasing_by exact nextBlock_shorter p _h

theorem readBlocks_shorter {more : List Bytes → Bool} {name : String} {reading : Bool} {blocks : List Bytes}
    {hashed : Bytes} {r r' : Reader} {seen : Seen}
    (h : r.readBlocks p more name reading blocks hashed = .ok (seen, r')) : r'.stream.length < r.stream.length := by
  fun_induction Reader.readBlocks p more name reading blocks hashed r with
  | case1 => simp at h
  | case2 reading blocks hashed r r₁ hstep =>
    cases h
    exact nextBlock_shorter p hstep
  | case3 reading blocks hashed r data r₁ hstep ih =>
    have hlen := nextBlock_shorter p hstep
    have hlater := ih h
    dsimp only at hlen
    omega

/-- `Reader.entries`, consumed to its end by a caller that reads of each entry
what `more` wants. -/
def Reader.entries (more : String → List Bytes → Bool) (r : Reader) : Except Error (List Seen × Reader) :=
  match _h : r.nextEntry with
  | .error e => .error e
  | .ok (none, r') => .ok ([], r')
  | .ok (some name, r') =>
    match _h' : r'.readBlocks p (more name) name true [] [] with
    | .error e => .error e
    | .ok (seen, r'') => (entries more r'').map (fun result => (seen :: result.1, result.2))
  termination_by r.stream.length
  decreasing_by
    have hentry := nextEntry_shorter _h
    have hblocks := readBlocks_shorter p _h'
    omega

/-- Open a file and walk its entries: what the caller has seen, and `entry_hashes` at the end. -/
def readFile (more : String → List Bytes → Bool) (passphrase : String) (file : Bytes) :
    Except Error (List Seen × List (String × Info)) :=
  (Reader.open p file passphrase).bind fun r =>
    (r.entries p more).map fun result => (result.1, result.2.entryHashes)

end Container
