import Ngcorion.Sysbackup.Container

/-!
# What a writer has written

The file is the header followed by one chunk for every piece of the compressed
stream, the last one marked as final. The stream is that of the records of all
entries, and the digests are those of their contents, however the calls of
`write` cut them.
-/
namespace Written

open Octets Container

variable (p : Platform)

/-! ## Records -/

def entryRecord (name : String) : Bytes := E :: (pack 2 (encode name).length ++ encode name)

def dataRecord (part : Bytes) : Bytes := D :: (pack 4 part.length ++ part)

def parts (e : Entry) : List Bytes := e.writes.flatMap (pieces CHUNK)

/-- The inputs of the compressor for one entry. -/
def entryInputs (e : Entry) : List Bytes := entryRecord e.name :: ((parts e).map dataRecord ++ [[Z]])

def infoOf (e : Entry) : Info := ⟨e.contents.length, hexdigest (p.sha256 e.contents)⟩

theorem flatten_parts (e : Entry) : (parts e).flatten = e.contents := by
  have hsize : 0 < CHUNK := by decide
  unfold parts Entry.contents
  induction e.writes with
  | nil => rfl
  | cons data writes ih => simp [List.flatMap_cons, flatten_pieces CHUNK hsize, ih]

theorem length_of_mem_parts {e : Entry} {part : Bytes} (h : part ∈ parts e) : part.length ≤ CHUNK := by
  obtain ⟨data, -, hpart⟩ := List.mem_flatMap.mp h
  exact length_of_mem_pieces hpart

/-! ## The compressed stream -/

/-- What `compress` gives for a list of inputs, after those it already had. -/
def deflating (fed : List Bytes) : List Bytes → Bytes
  | [] => []
  | x :: xs => p.compress fed x ++ deflating (fed ++ [x]) xs

/-- The whole compressed stream of a list of inputs. -/
def deflated (inputs : List Bytes) : Bytes := deflating p [] inputs ++ p.flush inputs

theorem deflating_append (fed a b : List Bytes) : deflating p fed (a ++ b) =
    deflating p fed a ++ deflating p (fed ++ a) b := by
  induction a generalizing fed with
  | nil => simp [deflating]
  | cons x a ih => simp [deflating, ih, List.append_assoc]

theorem deflating_concat (inputs : List Bytes) (x : Bytes) :
    deflating p [] (inputs ++ [x]) = deflating p [] inputs ++ p.compress inputs x := by
  simp [deflating_append, deflating]

/-! ## Chunks -/

def aadOf (digest : Bytes) (index : Nat) (final : Bool) : Bytes := digest ++ (pack 8 index ++ [flag final])

def frameOf (final : Bool) (nonce ct : Bytes) : Bytes := pack 4 ct.length ++ (flag final :: (nonce ++ ct))

/-- A piece of the compressed stream, and whether its chunk is the final one. -/
abbrev Piece := Bytes × Bool

section Chunks

variable (key digest : Bytes) (nonces : Nat → Bytes)

def sealOf (index : Nat) (piece : Piece) : Seal := ⟨nonces index, piece.1, aadOf digest index piece.2⟩

def ctOf (s : Seal) : Bytes := p.encrypt key s.nonce s.plain s.aad

def chunkOf (index : Nat) (piece : Piece) : Bytes :=
  frameOf piece.2 (nonces index) (ctOf p key (sealOf digest nonces index piece))

/-- The chunks of pieces, from an index on. -/
def chunks (index : Nat) : List Piece → Bytes
  | [] => []
  | x :: xs => chunkOf p key digest nonces index x ++ chunks (index + 1) xs

def seals (index : Nat) : List Piece → List Seal
  | [] => []
  | x :: xs => sealOf digest nonces index x :: seals (index + 1) xs

theorem chunks_concat (index : Nat) (xs : List Piece) (x : Piece) :
    chunks p key digest nonces index (xs ++ [x]) =
      chunks p key digest nonces index xs ++ chunkOf p key digest nonces (index + xs.length) x := by
  induction xs generalizing index with
  | nil => simp [chunks]
  | cons y xs ih =>
    have hindex : index + 1 + xs.length = index + (xs.length + 1) := by omega
    simp [chunks, ih, hindex]

theorem seals_concat (index : Nat) (xs : List Piece) (x : Piece) :
    seals digest nonces index (xs ++ [x]) =
      seals digest nonces index xs ++ [sealOf digest nonces (index + xs.length) x] := by
  induction xs generalizing index with
  | nil => simp [seals]
  | cons y xs ih =>
    have hindex : index + 1 + xs.length = index + (xs.length + 1) := by omega
    simp [seals, ih, hindex]

end Chunks

/-- The bytes of a list of pieces. -/
def joined (xs : List Piece) : Bytes := (xs.map Prod.fst).flatten

/-! ## The writer's invariant -/

/-- The file so far: its start, and the chunks of the pieces sealed so far. With
the pending bytes they hold the compressed stream so far. -/
structure Streams (key start : Bytes) (nonces : Nat → Bytes) (stream : Bytes) (w : Writer) (done : List Piece) :
    Prop where
  key_eq : w.key = key
  digest_eq : w.digest = p.sha256 start
  out : w.out = start ++ chunks p key (p.sha256 start) nonces 0 done
  index : w.index = done.length
  sealed : w.sealed = seals (p.sha256 start) nonces 0 done
  stream_eq : joined done ++ w.pending = stream
  fits : done.length ≤ 256 ^ 8
  small : ∀ x ∈ done, x.1.length ≤ CHUNK

/-- What the compressor has had, the open entry and the finished ones are the same. -/
structure SameEntry (w w' : Writer) : Prop where
  zipped : w'.zipped = w.zipped
  entry : w'.entry = w.entry
  hashed : w'.hashed = w.hashed
  entrySize : w'.entrySize = w.entrySize
  entries : w'.entries = w.entries

theorem SameEntry.refl (w : Writer) : SameEntry w w := ⟨rfl, rfl, rfl, rfl, rfl⟩

theorem SameEntry.trans {w w' w'' : Writer} (h : SameEntry w w') (h' : SameEntry w' w'') : SameEntry w w'' :=
  ⟨h'.zipped.trans h.zipped, h'.entry.trans h.entry, h'.hashed.trans h.hashed, h'.entrySize.trans h.entrySize,
    h'.entries.trans h.entries⟩

theorem structPack_some {width n : Nat} {bytes : Bytes} (h : structPack width n = some bytes) :
    n < 256 ^ width ∧ bytes = pack width n := by
  unfold structPack at h
  split at h
  · rename_i hn
    exact ⟨hn, by simpa using h.symm⟩
  · simp at h

theorem aad_some {digest aad : Bytes} {index : Nat} {final : Bool} (h : _aad digest index final = some aad) :
    index < 256 ^ 8 ∧ aad = aadOf digest index final := by
  simp only [_aad, Option.map_eq_some_iff] at h
  obtain ⟨raw, hraw, rfl⟩ := h
  obtain ⟨hindex, rfl⟩ := structPack_some hraw
  exact ⟨hindex, rfl⟩

theorem frame_some {final : Bool} {nonce ct bytes : Bytes} (h : frame final nonce ct = some bytes) :
    ct.length < 256 ^ 4 ∧ bytes = frameOf final nonce ct := by
  simp only [frame, Option.map_eq_some_iff] at h
  obtain ⟨raw, hraw, rfl⟩ := h
  obtain ⟨hlen, rfl⟩ := structPack_some hraw
  exact ⟨hlen, rfl⟩

section Writing

variable {p} {key start : Bytes} {nonces : Nat → Bytes} {stream : Bytes} {w w' : Writer}
  {done : List Piece}

/-- What one round of `_seal` does: the next piece is in the file and no longer pending. -/
structure Sealed (p : Platform) (nonces : Nat → Bytes) (last : Bool) (w w' : Writer) : Prop where
  same : SameEntry w w'
  key_eq : w'.key = w.key
  digest_eq : w'.digest = w.digest
  pending : w'.pending = w.pending.drop CHUNK
  room : w.index < 256 ^ 8
  index : w'.index = w.index + 1
  out : w'.out = w.out ++ chunkOf p w.key w.digest nonces w.index (w.pending.take CHUNK, last)
  sealed : w'.sealed = w.sealed ++ [sealOf w.digest nonces w.index (w.pending.take CHUNK, last)]

theorem sealChunk_ok {last : Bool} (h : w.sealChunk p nonces last = .ok w') : Sealed p nonces last w w' := by
  unfold Writer.sealChunk at h
  cases haad : _aad w.digest w.index last with
  | none => simp [haad] at h
  | some aad =>
    obtain ⟨hindex, rfl⟩ := aad_some haad
    simp only [haad] at h
    split at h
    · simp at h
    · rename_i bytes hframe
      obtain ⟨-, rfl⟩ := frame_some hframe
      cases h
      exact ⟨⟨rfl, rfl, rfl, rfl, rfl⟩, rfl, rfl, rfl, hindex, rfl, rfl, rfl⟩

theorem streams_sealed {last : Bool} (h : Streams p key start nonces stream w done) (hs : Sealed p nonces last w w') :
    Streams p key start nonces stream w' (done ++ [(w.pending.take CHUNK, last)]) where
  key_eq := hs.key_eq.trans h.key_eq
  digest_eq := hs.digest_eq.trans h.digest_eq
  out := by
    rw [hs.out, h.out, chunks_concat, h.key_eq, h.digest_eq, h.index, Nat.zero_add, List.append_assoc]
  index := by rw [hs.index, h.index, List.length_append, List.length_singleton]
  sealed := by rw [hs.sealed, h.sealed, seals_concat, h.digest_eq, h.index, Nat.zero_add]
  stream_eq := by
    rw [← h.stream_eq, hs.pending]
    simp [joined]
  fits := by
    have hroom := hs.room
    rw [h.index] at hroom
    rw [List.length_append, List.length_singleton]
    omega
  small := by
    intro x hx
    rcases List.mem_append.mp hx with hx | hx
    · exact h.small x hx
    · rw [List.mem_singleton.mp hx]
      exact List.length_take_le _ _

/-- No chunk so far is the final one. -/
def AllOpen (done : List Piece) : Prop := ∀ x ∈ done, x.2 = false

theorem AllOpen.concat (h : AllOpen done) (x : Bytes) : AllOpen (done ++ [(x, false)]) := by
  intro y hy
  rcases List.mem_append.mp hy with hy | hy
  · exact h y hy
  · rw [List.mem_singleton.mp hy]

/-- Sealing whole chunks while the archive goes on. -/
theorem sealRounds_open (rounds : Nat) (h : Streams p key start nonces stream w done) (hopen : AllOpen done)
    (hok : w.sealRounds p nonces false rounds = .ok w') :
    SameEntry w w' ∧ ∃ done', Streams p key start nonces stream w' done' ∧ AllOpen done' := by
  induction rounds generalizing w done with
  | zero =>
    cases hok
    exact ⟨.refl _, done, h, hopen⟩
  | succ rounds ih =>
    rw [Writer.sealRounds] at hok
    split at hok
    · simp only [Bool.false_and, Bool.false_eq_true, if_false] at hok
      split at hok
      · simp at hok
      · rename_i w₁ hstep
        have hs := sealChunk_ok hstep
        obtain ⟨hsame, hrest⟩ := ih (streams_sealed h hs) (hopen.concat _) hok
        exact ⟨hs.same.trans hsame, hrest⟩
    · cases hok
      exact ⟨.refl _, done, h, hopen⟩

/-- Sealing what is left at the end: the last chunk is final, and nothing is pending. -/
theorem sealRounds_final (rounds : Nat) (h : Streams p key start nonces stream w done) (hopen : AllOpen done)
    (hrounds : w.pending.length < rounds) (hok : w.sealRounds p nonces true rounds = .ok w') :
    SameEntry w w' ∧ w'.pending = [] ∧
      ∃ done' x, Streams p key start nonces stream w' (done' ++ [(x, true)]) ∧ AllOpen done' := by
  induction rounds generalizing w done with
  | zero => omega
  | succ rounds ih =>
    rw [Writer.sealRounds, if_pos (Or.inr rfl), Bool.true_and] at hok
    dsimp only at hok
    by_cases hlast : w.pending.drop CHUNK = []
    · simp only [hlast, decide_true, if_true] at hok
      split at hok
      · simp at hok
      · rename_i w₁ hstep
        cases hok
        have hs := sealChunk_ok hstep
        exact ⟨hs.same, hs.pending.trans hlast, done, _, streams_sealed h hs, hopen⟩
    · simp only [hlast, decide_false, Bool.false_eq_true, if_false] at hok
      split at hok
      · simp at hok
      · rename_i w₁ hstep
        have hs := sealChunk_ok hstep
        have hshorter : w₁.pending.length < rounds := by
          have hpos := List.length_pos_of_ne_nil hlast
          have hchunk : CHUNK = 1048576 := rfl
          rw [List.length_drop] at hpos
          rw [hs.pending, List.length_drop]
          omega
        obtain ⟨hsame, hrest⟩ := ih (streams_sealed h hs) (hopen.concat _) hshorter hok
        exact ⟨hs.same.trans hsame, hrest⟩

/-- A writer that has passed `inputs` to the compressor and sealed no final chunk. -/
def Writes (p : Platform) (key start : Bytes) (nonces : Nat → Bytes) (w : Writer) (inputs : List Bytes) : Prop :=
  w.zipped = inputs ∧ ∃ done, Streams p key start nonces (deflating p [] inputs) w done ∧ AllOpen done

variable {inputs : List Bytes}

theorem streams_pending (h : Streams p key start nonces stream w done) (more : Bytes) (zipped : List Bytes) :
    Streams p key start nonces (stream ++ more) { w with pending := w.pending ++ more, zipped := zipped } done where
  key_eq := h.key_eq
  digest_eq := h.digest_eq
  out := h.out
  index := h.index
  sealed := h.sealed
  stream_eq := by rw [← h.stream_eq, List.append_assoc]
  fits := h.fits
  small := h.small

theorem plain_ok {data : Bytes} (h : Writes p key start nonces w inputs) (hok : w._plain p nonces data = .ok w') :
    Writes p key start nonces w' (inputs ++ [data]) ∧ w'.entry = w.entry ∧ w'.hashed = w.hashed ∧
      w'.entrySize = w.entrySize ∧ w'.entries = w.entries := by
  obtain ⟨hzipped, done, hs, hopen⟩ := h
  have hmore := streams_pending hs (p.compress w.zipped data) (w.zipped ++ [data])
  rw [hzipped, ← deflating_concat] at hmore
  unfold Writer._plain at hok
  dsimp only at hok
  rw [hzipped] at hok
  split at hok
  · obtain ⟨hsame, done', hs', hopen'⟩ := sealRounds_open _ hmore hopen hok
    exact ⟨⟨hsame.zipped, done', hs', hopen'⟩, hsame.entry, hsame.hashed, hsame.entrySize, hsame.entries⟩
  · cases hok
    exact ⟨⟨rfl, done, hmore, hopen⟩, rfl, rfl, rfl, rfl⟩

/-! ## Entries -/

/-- The fields of the entries do not matter to the stream. -/
theorem Writes.fields (h : Writes p key start nonces w inputs) (entry : Option String) (hashed : Option Bytes)
    (entrySize : Nat) (entries : List (Option String × Info)) :
    Writes p key start nonces { w with entry := entry, hashed := hashed, entrySize := entrySize, entries := entries }
      inputs := by
  obtain ⟨hzipped, done, hs, hopen⟩ := h
  exact ⟨hzipped, done, ⟨hs.key_eq, hs.digest_eq, hs.out, hs.index, hs.sealed, hs.stream_eq, hs.fits, hs.small⟩, hopen⟩

theorem begin_ok {name : String} (h : Writes p key start nonces w inputs) (hok : w.begin p nonces name = .ok w') :
    w.entry = none ∧ (encode name).length < 256 ^ 2 ∧ Writes p key start nonces w' (inputs ++ [entryRecord name]) ∧
      w'.entry = some name ∧ w'.hashed = some [] ∧ w'.entrySize = 0 ∧ w'.entries = w.entries := by
  unfold Writer.begin at hok
  split at hok
  · simp at hok
  · rename_i hentry
    split at hok
    · simp at hok
    split at hok
    · simp at hok
    · rename_i size hsize
      obtain ⟨hlen, rfl⟩ := structPack_some hsize
      obtain ⟨w₁, hplain, rfl⟩ := map_ok hok
      obtain ⟨hw, -, -, -, hentries⟩ := plain_ok h hplain
      exact ⟨hentry, hlen, hw.fields _ _ _ _, rfl, rfl, rfl, hentries⟩

/-- An entry is open under `name`, and `data` has been written to it. -/
structure Opened (w : Writer) (name : String) (data : Bytes) (entries : List (Option String × Info)) : Prop where
  entry : w.entry = some name
  hashed : w.hashed = some data
  entrySize : w.entrySize = data.length
  entries_eq : w.entries = entries

variable {name : String} {data : Bytes} {entries : List (Option String × Info)}

theorem writePart_ok {part : Bytes} (h : Writes p key start nonces w inputs) (ho : Opened w name data entries)
    (hok : w.writePart p nonces part = .ok w') :
    Writes p key start nonces w' (inputs ++ [dataRecord part]) ∧ Opened w' name (data ++ part) entries := by
  unfold Writer.writePart at hok
  split at hok
  · simp at hok
  · rename_i size hsize
    obtain ⟨-, rfl⟩ := structPack_some hsize
    obtain ⟨w₁, hplain, rfl⟩ := map_ok hok
    obtain ⟨hw, hentry, hhashed, hsize, hentries⟩ := plain_ok h hplain
    refine ⟨hw.fields _ _ _ _, hentry.trans ho.entry, ?_, ?_, hentries.trans ho.entries_eq⟩
    · simp [hhashed, ho.hashed]
    · simp [hsize, ho.entrySize]

theorem writeParts_ok (ps : List Bytes) (h : Writes p key start nonces w inputs) (ho : Opened w name data entries)
    (hok : w.writeParts p nonces ps = .ok w') :
    Writes p key start nonces w' (inputs ++ ps.map dataRecord) ∧ Opened w' name (data ++ ps.flatten) entries := by
  induction ps generalizing w inputs data with
  | nil =>
    cases hok
    simpa using ⟨h, ho⟩
  | cons part ps ih =>
    obtain ⟨w₁, hpart, hrest⟩ := bind_ok hok
    obtain ⟨hw₁, ho₁⟩ := writePart_ok h ho hpart
    simpa using ih hw₁ ho₁ hrest

theorem calls_append (a b : List Call) (w : Writer) :
    w.calls p nonces (a ++ b) = (w.calls p nonces a).bind (fun w => w.calls p nonces b) := by
  induction a generalizing w with
  | nil => rfl
  | cons c a ih =>
    simp only [List.cons_append, Writer.calls]
    cases w.call p nonces c with
    | error e => rfl
    | ok w₁ => exact ih w₁

theorem writes_ok (writes : List Bytes) (h : Writes p key start nonces w inputs) (ho : Opened w name data entries)
    (hok : w.calls p nonces (writes.map .write) = .ok w') :
    Writes p key start nonces w' (inputs ++ (writes.flatMap (pieces CHUNK)).map dataRecord) ∧
      Opened w' name (data ++ writes.flatten) entries := by
  have hsize : 0 < CHUNK := by decide
  induction writes generalizing w inputs data with
  | nil =>
    cases hok
    simpa using ⟨h, ho⟩
  | cons x writes ih =>
    obtain ⟨w₁, hwrite, hrest⟩ := bind_ok hok
    have hparts : w.writeParts p nonces (pieces CHUNK x) = .ok w₁ := by
      simpa [Writer.call, Writer.write, ho.entry] using hwrite
    obtain ⟨hw₁, ho₁⟩ := writeParts_ok _ h ho hparts
    rw [flatten_pieces CHUNK hsize] at ho₁
    simpa using ih hw₁ ho₁ hrest

theorem endEntry_ok (h : Writes p key start nonces w inputs) (ho : Opened w name data entries)
    (hok : w.endEntry p nonces = .ok w') :
    Writes p key start nonces w' (inputs ++ [[Z]]) ∧ w'.entry = none ∧
      w'.entries = Dict.set entries (some name) ⟨data.length, hexdigest (p.sha256 data)⟩ := by
  obtain ⟨w₁, hplain, hok⟩ := bind_ok hok
  obtain ⟨hw, hentry, hhashed, hsize, hentries⟩ := plain_ok h hplain
  rw [hhashed, ho.hashed] at hok
  cases hok
  refine ⟨hw.fields none _ _ _, rfl, ?_⟩
  simp [hentry, hsize, hentries, ho.entry, ho.entrySize, ho.entries_eq]

/-- The calls for one entry. -/
theorem entry_ok (e : Entry) (h : Writes p key start nonces w inputs) (hok : w.calls p nonces e.calls = .ok w') :
    Writes p key start nonces w' (inputs ++ entryInputs e) ∧ (encode e.name).length < 256 ^ 2 ∧ w'.entry = none ∧
      w'.entries = Dict.set w.entries (some e.name) (infoOf p e) := by
  obtain ⟨w₁, hbegin, hok⟩ := bind_ok hok
  obtain ⟨-, hlen, hw₁, hentry, hhashed, hsize, hentries⟩ := begin_ok h hbegin
  rw [calls_append] at hok
  obtain ⟨w₂, hwrites, hok⟩ := bind_ok hok
  obtain ⟨hw₂, ho₂⟩ := writes_ok e.writes hw₁ ⟨hentry, hhashed, hsize, hentries⟩ hwrites
  obtain ⟨w₃, hend, hok⟩ := bind_ok hok
  cases hok
  obtain ⟨hw₃, hnone, hset⟩ := endEntry_ok hw₂ ho₂ hend
  refine ⟨?_, hlen, hnone, hset⟩
  simpa [entryInputs, parts] using hw₃

/-- The digests of a list of entries, in the order they were written. -/
def infos (p : Platform) {κ : Type} [DecidableEq κ] (key : String → κ) (d : List (κ × Info)) (es : List Entry) :
    List (κ × Info) := es.foldl (fun d e => Dict.set d (key e.name) (infoOf p e)) d

theorem entries_ok (es : List Entry) (h : Writes p key start nonces w inputs) (hnone : w.entry = none)
    (hok : w.calls p nonces (es.flatMap Entry.calls) = .ok w') :
    Writes p key start nonces w' (inputs ++ es.flatMap entryInputs) ∧
      (∀ e ∈ es, (encode e.name).length < 256 ^ 2) ∧ w'.entry = none ∧ w'.entries = infos p some w.entries es := by
  induction es generalizing w inputs with
  | nil =>
    cases hok
    exact ⟨by simpa using h, by simp, hnone, rfl⟩
  | cons e es ih =>
    rw [List.flatMap_cons, calls_append] at hok
    obtain ⟨w₁, hentry, hok⟩ := bind_ok hok
    obtain ⟨hw₁, hlen, hnone₁, hset⟩ := entry_ok e h hentry
    obtain ⟨hw', hlens, hnone', hinfos⟩ := ih hw₁ hnone₁ hok
    refine ⟨by simpa using hw', ?_, hnone', ?_⟩
    · intro e' he'
      rcases List.mem_cons.mp he' with rfl | he'
      · exact hlen
      · exact hlens e' he'
    · rw [hinfos, hset]
      rfl

end Writing

/-! ## The whole file -/

/-- The part of the file before its chunks. -/
def startOf (raw : Bytes) : Bytes := MAGIC ++ (pack 4 raw.length ++ raw)

/-- The inputs of the compressor for a whole file. -/
def fileInputs (es : List Entry) : List Bytes := es.flatMap entryInputs ++ [[X]]

/-- A finished file: a start with the header, open chunks and a final one, which
together hold the compressed records of all entries. -/
structure Finished (nonces : Nat → Bytes) (salt : Bytes) (passphrase : String) (header : List (String × Json))
    (es : List Entry) (w : Writer) (key raw : Bytes) (done : List Piece) (last : Bytes) : Prop where
  derived : derive_key p passphrase salt SCRYPT_N SCRYPT_R SCRYPT_P = some key
  dumped : p.dumps (headOf p salt key header) = some raw
  fits : raw.length < 256 ^ 4
  streams : Streams p key (startOf raw) nonces (deflated p (fileInputs es)) w (done ++ [(last, true)])
  sealed : w.pending = []
  opened : AllOpen done
  names : ∀ e ∈ es, (encode e.name).length < 256 ^ 2
  entries : w.entries = infos p some [] es

variable {p} {nonces : Nat → Bytes} {salt : Bytes} {passphrase : String} {header : List (String × Json)}
  {es : List Entry} {w : Writer}

theorem init_ok (nonces : Nat → Bytes) (h : Writer.init p salt passphrase header = .ok w) :
    ∃ key raw, derive_key p passphrase salt SCRYPT_N SCRYPT_R SCRYPT_P = some key ∧
      p.dumps (headOf p salt key header) = some raw ∧ raw.length < 256 ^ 4 ∧
      Writes p key (startOf raw) nonces w [] ∧ w.entry = none ∧ w.entries = [] := by
  unfold Writer.init at h
  split at h
  · simp at h
  · rename_i key hkey
    split at h
    · simp at h
    · rename_i raw hraw
      split at h
      · simp at h
      · rename_i size hsize
        obtain ⟨hlen, rfl⟩ := structPack_some hsize
        cases h
        refine ⟨key, raw, hkey, hraw, hlen, ⟨rfl, [], ?_, by simp [AllOpen]⟩, rfl, rfl⟩
        exact ⟨rfl, rfl, by simp [chunks, startOf], rfl, rfl, by simp [joined, deflating], by simp, by simp⟩

theorem close_ok {key start : Bytes} {inputs : List Bytes} {w' : Writer} {sha : List Char}
    (h : Writes p key start nonces w inputs) (hok : w.close p nonces = .ok (w', sha)) :
    w'.pending = [] ∧ w'.entries = w.entries ∧
      ∃ done last, Streams p key start nonces (deflated p (inputs ++ [[X]])) w' (done ++ [(last, true)]) ∧
        AllOpen done := by
  unfold Writer.close at hok
  split at hok
  · simp at hok
  · obtain ⟨w₁, hplain, hok⟩ := bind_ok hok
    obtain ⟨⟨hzipped, done, hs, hopen⟩, -, -, -, hentries⟩ := plain_ok h hplain
    obtain ⟨w₂, hseal, hok⟩ := map_ok hok
    cases hok
    have hflush := streams_pending hs (p.flush w₁.zipped) w₁.zipped
    rw [hzipped, ← deflated] at hflush
    rw [hzipped] at hseal
    obtain ⟨hsame, hpending, done', last, hs', hopen'⟩ :=
      sealRounds_final _ hflush hopen (Nat.lt_succ_self _) hseal
    refine ⟨hpending, hsame.entries.trans hentries, done', last, ?_, hopen'⟩
    exact ⟨hs'.key_eq, hs'.digest_eq, hs'.out, hs'.index, hs'.sealed, hs'.stream_eq, hs'.fits, hs'.small⟩

/-- What a writer leaves that was created, given entries and closed. -/
theorem writeFile_ok {sha : List Char} (h : writeFile p nonces salt passphrase header es = .ok (w, sha)) :
    ∃ key raw done last, Finished p nonces salt passphrase header es w key raw done last := by
  obtain ⟨w₀, hinit, h⟩ := bind_ok h
  obtain ⟨w₁, hcalls, hclose⟩ := bind_ok h
  obtain ⟨key, raw, hkey, hraw, hlen, hw₀, hnone, hentries₀⟩ := init_ok nonces hinit
  obtain ⟨hw₁, hnames, -, hentries₁⟩ := entries_ok es hw₀ hnone hcalls
  obtain ⟨hpending, hentries, done, last, hs, hopen⟩ := close_ok hw₁ hclose
  refine ⟨key, raw, done, last, hkey, hraw, hlen, ?_, hpending, hopen, hnames, ?_⟩
  · simpa [fileInputs] using hs
  · rw [hentries, hentries₁, hentries₀]

end Written
