import Ngcorion.Sysbackup.Written

/-!
# Reading back what was written

Every file that a writer finishes is read back: the same names in the same
order, the contents of each entry, the same digests, and no error, whatever
part of each entry the caller reads.
-/
namespace RoundTrip

open Octets Container Written

variable (p : Platform)

/-! ## What the libraries promise -/

/-- `decompress` for a list of inputs, after those it already had. -/
def inflating (fed : List Bytes) : List Bytes → Option (List Bytes)
  | [] => some []
  | x :: xs => (p.decompress fed x).bind fun out => (inflating (fed ++ [x]) xs).map (out :: ·)

/-- Decompressing undoes compressing, however the compressed stream is cut. -/
def ZlibUndoes : Prop :=
  ∀ inputs chunks, chunks.flatten = deflated p inputs →
    ∃ outs, inflating p [] chunks = some outs ∧ outs.flatten ++ p.unflush chunks = inputs.flatten

/-- A JSON value that is neither an array nor an object. -/
def isLeaf : Json → Bool
  | .arr _ => false
  | .obj _ => false
  | _ => true

/-- The plain value that a path of keys leads to. -/
def leaf : List String → Json → Option Json
  | [], j => if isLeaf j then some j else none
  | key :: path, .obj fields => (Dict.get fields key).bind (leaf path)
  | _ :: _, _ => none

/-- The header text is read back as an object with the same values under the same keys. -/
def JsonReads (header : List (String × Json)) (raw : Bytes) : Prop :=
  ∃ header', p.loads raw = .value (.obj header') ∧ ∀ path, leaf path (.obj header') = leaf path (.obj header)

/-- What writing and reading rely on. -/
structure Lawful : Prop where
  zlib : ZlibUndoes p
  gcm : ∀ key nonce plain aad, p.decrypt key nonce (p.encrypt key nonce plain aad) aad = some plain
  tag : ∀ key nonce plain aad, (p.encrypt key nonce plain aad).length = plain.length + 16
  base64 : ∀ bytes, p.b64decode (p.b64encode bytes) = some bytes

/-! ## The header -/

theorem get_of_leaf {fields : List (String × Json)} {key : String} {v : Json} (h : leaf [key] (.obj fields) = some v) :
    Dict.get fields key = some v := by
  simp only [leaf, Option.bind_eq_some_iff] at h
  obtain ⟨j, hj, hv⟩ := h
  split at hv
  · rw [hj, ← hv]
  · simp at hv

theorem kdfField_of_leaf {header : List (String × Json)} {key : String} {v : Json}
    (h : leaf ["kdf", key] (.obj header) = some v) : kdfField header key = some v := by
  simp only [leaf, Option.bind_eq_some_iff] at h
  obtain ⟨j, hj, hv⟩ := h
  cases j with
  | obj fields =>
    simp only [kdfField, hj]
    exact get_of_leaf hv
  | _ => simp [leaf] at hv

theorem leaf_headOf (salt key : Bytes) (header : List (String × Json)) :
    leaf ["format"] (.obj (headOf p salt key header)) = some (.int FORMAT) ∧
    leaf ["kdf", "salt"] (.obj (headOf p salt key header)) = some (.str (p.b64encode salt)) ∧
    leaf ["kdf", "n"] (.obj (headOf p salt key header)) = some (.int SCRYPT_N) ∧
    leaf ["kdf", "r"] (.obj (headOf p salt key header)) = some (.int SCRYPT_R) ∧
    leaf ["kdf", "p"] (.obj (headOf p salt key header)) = some (.int SCRYPT_P) ∧
    leaf ["check"] (.obj (headOf p salt key header)) = some (.str (p.b64encode (_check_value p key))) := by
  simp [leaf, headOf, Dict.get_set, Dict.get, isLeaf]

theorem length_startOf (raw : Bytes) : (startOf raw).length = MAGIC.length + 4 + raw.length := by
  simp [startOf]
  omega

/-- The header of a file is found with the rest of the file after it, unless it is too large. -/
theorem headerText_start (raw rest : Bytes) (hlen : raw.length < 256 ^ 4) :
    headerText (startOf raw ++ rest) =
      if raw.length > MAX_HEADER then .error (.format .headerTooLarge) else .ok (raw, rest) := by
  have hunpack := unpack_pack 4 raw.length hlen
  have htake : (startOf raw ++ rest).take MAGIC.length = MAGIC := by simp [startOf, List.append_assoc]
  have hdrop : (startOf raw ++ rest).drop MAGIC.length = pack 4 raw.length ++ (raw ++ rest) := by
    simp [startOf, List.append_assoc]
  have hsize : (pack 4 raw.length ++ (raw ++ rest)).take 4 = pack 4 raw.length := List.take_left' (length_pack 4 _)
  have hafter : (pack 4 raw.length ++ (raw ++ rest)).drop 4 = raw ++ rest := List.drop_left' (length_pack 4 _)
  simp [headerText, htake, hdrop, hsize, hafter, hunpack]

variable {p}

/-- A written header is read back and opens the file. -/
theorem read_header_start {salt key raw rest : Bytes} {passphrase : String} {header : List (String × Json)}
    (h64 : ∀ bytes, p.b64decode (p.b64encode bytes) = some bytes)
    (hkey : derive_key p passphrase salt SCRYPT_N SCRYPT_R SCRYPT_P = some key)
    (hjson : JsonReads p (headOf p salt key header) raw) (hlen : raw.length < 256 ^ 4)
    (hread : ∃ x, read_header p (startOf raw ++ rest) = .ok x) :
    ∃ header', read_header p (startOf raw ++ rest) = .ok (header', p.sha256 (startOf raw), rest) ∧
      unlock p header' passphrase = .ok key := by
  obtain ⟨header', hloads, hsame⟩ := hjson
  obtain ⟨hformat, hsalt, hn, hr, hp, hcheck⟩ := leaf_headOf p salt key header
  simp only [← hsame] at hformat hsalt hn hr hp hcheck
  have htake : (startOf raw ++ rest).take (MAGIC.length + 4 + raw.length) = startOf raw :=
    List.take_left' (length_startOf raw)
  refine ⟨header', ?_, ?_⟩
  · obtain ⟨x, hx⟩ := hread
    by_cases hlarge : raw.length > MAX_HEADER
    · simp [read_header, headerText_start raw rest hlen, hlarge] at hx
    · simp only [read_header, headerText_start raw rest hlen, hlarge, if_false, hloads, get_of_leaf hformat, isFormat,
        decide_true, if_true, htake]
  · simp only [unlock, kdfNumbers, kdfField_of_leaf hsalt, kdfField_of_leaf hn, kdfField_of_leaf hr,
      kdfField_of_leaf hp, get_of_leaf hcheck, pyB64decode, pyInt, h64, hkey, if_true]

/-! ## The chunks -/

theorem nextFrame_frameOf (final : Bool) {nonce ct : Bytes} (rest : Bytes) (hn : nonce.length = 12)
    (hct : ct.length ≤ MAX_CHUNK) : nextFrame (frameOf final nonce ct ++ rest) = .ok ⟨final, nonce, ct, rest⟩ := by
  have hmax : MAX_CHUNK < 256 ^ 4 := by decide
  have hunpack := unpack_pack 4 ct.length (by omega)
  have happ : frameOf final nonce ct ++ rest = pack 4 ct.length ++ (flag final :: (nonce ++ (ct ++ rest))) := by
    simp [frameOf, List.append_assoc]
  have htake : (frameOf final nonce ct ++ rest).take 4 = pack 4 ct.length := by
    rw [happ]
    exact List.take_left' (length_pack 4 _)
  have hdrop : (frameOf final nonce ct ++ rest).drop 4 = flag final :: (nonce ++ (ct ++ rest)) := by
    rw [happ]
    exact List.drop_left' (length_pack 4 _)
  have hbody : (frameOf final nonce ct ++ rest).drop 5 = nonce ++ (ct ++ rest) := by
    rw [show (5 : Nat) = 4 + 1 from rfl, ← List.drop_drop, hdrop]
    rfl
  have hnonce : (nonce ++ (ct ++ rest)).take 12 = nonce := List.take_left' hn
  have hnext : (nonce ++ (ct ++ rest)).drop 12 = ct ++ rest := List.drop_left' hn
  have hlong : ¬ ct.length > MAX_CHUNK := by omega
  cases final <;>
    simp [nextFrame, htake, hdrop, hbody, hunpack, hnonce, hnext, hlong, hn, flag]

theorem structPack_fits {width n : Nat} (h : n < 256 ^ width) : structPack width n = some (pack width n) := if_pos h

theorem aad_fits {digest : Bytes} {index : Nat} (final : Bool) (h : index < 256 ^ 8) :
    _aad digest index final = some (aadOf digest index final) := by
  simp [_aad, structPack_fits h, aadOf]

section Chunks

variable {key digest : Bytes} {nonces : Nat → Bytes}

/-- One chunk is decrypted and decompressed. -/
theorem decrypted_chunk (piece : Piece) (rest : Bytes) {index : Nat} {fed : List Bytes} {out : Bytes}
    (hn : ∀ i, (nonces i).length = 12) (hsmall : (ctOf p key (sealOf digest nonces index piece)).length ≤ MAX_CHUNK)
    (hindex : index < 256 ^ 8)
    (hgcm : p.decrypt key (nonces index) (ctOf p key (sealOf digest nonces index piece)) (aadOf digest index piece.2) =
      some piece.1)
    (hzip : p.decompress fed piece.1 = some out) :
    decrypted p key digest index fed (chunkOf p key digest nonces index piece ++ rest) =
      .yields out
        (if piece.2 then
          .yields (p.unflush (fed ++ [piece.1])) ⟨[], if rest = [] then .ok () else .error (.format .dataAfterBackup)⟩
         else decrypted p key digest (index + 1) (fed ++ [piece.1]) rest) := by
  have hframe := nextFrame_frameOf piece.2 rest (hn index) hsmall
  rw [decrypted]
  split
  · rename_i e he
    rw [chunkOf, hframe] at he
    simp at he
  · rename_i f hf
    rw [chunkOf, hframe] at hf
    cases hf
    simp only [aad_fits piece.2 hindex, hgcm, hzip]

/-- What the generator gives has no empty item. -/
def NoEmpty (produced : Produced) : Prop := ∀ x ∈ produced.items, x ≠ []

theorem yields_noEmpty {out : Bytes} {later : Produced} (h : NoEmpty later) : NoEmpty (.yields out later) := by
  unfold Produced.yields
  split
  · exact h
  · rename_i hout
    intro x hx
    rcases List.mem_cons.mp hx with rfl | hx
    · exact hout
    · exact h x hx

/-- The generator never yields an empty item. -/
theorem decrypted_noEmpty (key digest : Bytes) (index : Nat) (fed : List Bytes) (file : Bytes) :
    NoEmpty (decrypted p key digest index fed file) := by
  fun_induction decrypted p key digest index fed file with
  | case1 => simp [NoEmpty]
  | case2 => simp [NoEmpty]
  | case3 => simp [NoEmpty]
  | case4 => simp [NoEmpty]
  | case5 index fed file f _ aad _ plain _ out _ ih =>
    apply yields_noEmpty
    split
    · exact yields_noEmpty (by simp [NoEmpty])
    · exact ih

@[simp] theorem yields_flatten (out : Bytes) (later : Produced) :
    (Produced.yields out later).items.flatten = out ++ later.items.flatten := by
  unfold Produced.yields
  split
  · rename_i hout
    simp [hout]
  · simp

@[simp] theorem yields_ending (out : Bytes) (later : Produced) :
    (Produced.yields out later).ending = later.ending := by
  unfold Produced.yields
  split <;> rfl

/-- The chunks of a whole file give the decompressed stream. -/
theorem decrypted_chunks (key digest : Bytes) (hlaw : Lawful p) (hn : ∀ i, (nonces i).length = 12) (last : Bytes)
    (hlast : last.length ≤ CHUNK) (done : List Piece) (hopen : AllOpen done) (hsmall : ∀ x ∈ done, x.1.length ≤ CHUNK)
    (index : Nat) (hfits : index + done.length < 256 ^ 8) (fed outs : List Bytes)
    (hinf : inflating p fed (done.map Prod.fst ++ [last]) = some outs) :
    let produced := decrypted p key digest index fed (chunks p key digest nonces index (done ++ [(last, true)]))
    produced.ending = .ok () ∧
      produced.items.flatten = outs.flatten ++ p.unflush (fed ++ (done.map Prod.fst ++ [last])) := by
  have hmax : CHUNK + 16 ≤ MAX_CHUNK := by decide
  induction done generalizing index fed outs with
  | nil =>
    simp only [List.map_nil, List.nil_append, inflating, Option.bind_eq_some_iff, Option.map_some,
      Option.some.injEq] at hinf
    obtain ⟨out, hout, rfl⟩ := hinf
    have hchunk := decrypted_chunk (last, true) [] hn
      (by simp only [ctOf, sealOf, hlaw.tag]; omega) (by simpa using hfits)
      (hlaw.gcm key (nonces index) last (aadOf digest index true)) hout
    simp only [List.append_nil, if_true] at hchunk
    simp only [List.nil_append, chunks, List.append_nil, hchunk, List.map_nil]
    refine ⟨by simp, by simp⟩
  | cons piece done ih =>
    obtain ⟨x, final⟩ := piece
    have hfinal : final = false := hopen (x, final) (by simp)
    subst hfinal
    simp only [List.map_cons, List.cons_append, inflating, Option.bind_eq_some_iff, Option.map_eq_some_iff] at hinf
    obtain ⟨out, hout, outs', hrest, rfl⟩ := hinf
    have hx : x.length ≤ CHUNK := hsmall (x, false) (by simp)
    have hchunk := decrypted_chunk (x, false)
      (chunks p key digest nonces (index + 1) (done ++ [(last, true)])) hn
      (by simp only [ctOf, sealOf, hlaw.tag]; omega) (by omega)
      (hlaw.gcm key (nonces index) x (aadOf digest index false)) hout
    obtain ⟨hending, hflat⟩ := ih (fun y hy => hopen y (by simp [hy])) (fun y hy => hsmall y (by simp [hy]))
      (index + 1) (by simp only [List.length_cons] at hfits; omega) (fed ++ [x]) outs' hrest
    simp only [List.cons_append, chunks, hchunk, Bool.false_eq_true, if_false, yields_ending, yields_flatten]
    exact ⟨hending, by simp [hflat]⟩

end Chunks

/-! ## The records -/

/-- The reader has only moved on in its stream. -/
structure Moved (r r' : Reader) : Prop where
  plain : r'.plain <:+ r.plain
  ending : r'.ending = r.ending

theorem Moved.refl (r : Reader) : Moved r r := ⟨List.suffix_refl _, rfl⟩

theorem Moved.trans {r r' r'' : Reader} (h : Moved r r') (h' : Moved r' r'') : Moved r r'' :=
  ⟨h'.plain.trans h.plain, h'.ending.trans h.ending⟩

/-- Taking the next bytes of a stream that may be cut: they are there, or the
stream is too short and its ending is raised. -/
theorem take_prefix {r : Reader} {a b : Bytes} (h : r.stream <+: a ++ b) :
    (∃ r', r._take a.length = .ok (a, r') ∧ r.stream = a ++ r'.stream ∧ Moved r r' ∧
      r'.entryHashes = r.entryHashes) ∨
    (r.stream.length < a.length ∧ r._take a.length = .error (short r.ending)) := by
  by_cases hlen : a.length ≤ r.stream.length
  · obtain ⟨s, hs⟩ := List.prefix_of_prefix_length_le (List.prefix_append a b) h hlen
    obtain ⟨r', htake, hafter⟩ := take_enough r a.length hlen
    refine Or.inl ⟨r', ?_, ?_, ⟨hafter.plain, hafter.ending⟩, hafter.hashes⟩
    · rw [htake, ← hs, List.take_left' rfl]
    · rw [hafter.stream, ← hs, List.drop_left' rfl]
  · exact Or.inr ⟨by omega, take_short r a.length (by omega)⟩

theorem prefix_after {a b s t : Bytes} (h : s <+: a ++ b) (hs : s = a ++ t) : t <+: b := by
  rw [hs] at h
  exact (List.prefix_append_right_inj a).mp h

theorem tags : D ≠ Z ∧ E ≠ X := by decide

/-- A tag, a length and as many bytes. -/
theorem take_record {r : Reader} {tag : UInt8} {width : Nat} {data tail : Bytes}
    (h : r.stream <+: tag :: (pack width data.length ++ data) ++ tail) :
    (∃ r₁ r₂ r₃, r._take 1 = .ok ([tag], r₁) ∧ r₁._take width = .ok (pack width data.length, r₂) ∧
      r₂._take data.length = .ok (data, r₃) ∧ r.stream = tag :: (pack width data.length ++ data) ++ r₃.stream ∧
      Moved r r₃ ∧ r₃.entryHashes = r.entryHashes) ∨
    (r.stream.length < width + data.length + 1 ∧
      (r._take 1 = .error (short r.ending) ∨
        ∃ r₁, r._take 1 = .ok ([tag], r₁) ∧
          (r₁._take width = .error (short r.ending) ∨
            ∃ r₂, r₁._take width = .ok (pack width data.length, r₂) ∧
              r₂._take data.length = .error (short r.ending)))) := by
  have happ : tag :: (pack width data.length ++ data) ++ tail = [tag] ++ (pack width data.length ++ (data ++ tail)) := by
    simp
  rw [happ] at h
  rcases take_prefix h with ⟨r₁, htake₁, hs₁, hm₁, hh₁⟩ | ⟨hlen, herr⟩
  · have h₁ := prefix_after h hs₁
    rcases take_prefix h₁ with ⟨r₂, htake₂, hs₂, hm₂, hh₂⟩ | ⟨hlen, herr⟩
    · have h₂ := prefix_after h₁ hs₂
      rw [length_pack] at htake₂
      rcases take_prefix h₂ with ⟨r₃, htake₃, hs₃, hm₃, hh₃⟩ | ⟨hlen, herr⟩
      · refine Or.inl ⟨r₁, r₂, r₃, htake₁, htake₂, htake₃, ?_, hm₁.trans (hm₂.trans hm₃), hh₃.trans (hh₂.trans hh₁)⟩
        rw [hs₁, hs₂, hs₃]
        simp
      · refine Or.inr ⟨?_, Or.inr ⟨r₁, htake₁, Or.inr ⟨r₂, htake₂, ?_⟩⟩⟩
        · rw [hs₁, hs₂]
          simp only [List.length_append, List.length_singleton, length_pack]
          omega
        · rw [herr, hm₂.ending, hm₁.ending]
    · refine Or.inr ⟨?_, Or.inr ⟨r₁, htake₁, Or.inl ?_⟩⟩
      · rw [hs₁, List.length_append, List.length_singleton]
        rw [length_pack] at hlen
        omega
      · rw [length_pack] at herr
        rw [herr, hm₁.ending]
  · refine Or.inr ⟨?_, Or.inl herr⟩
    rw [List.length_singleton] at hlen
    omega

theorem nextBlock_data (name : String) (hashed : Bytes) {r : Reader} {part tail : Bytes}
    (h : r.stream <+: dataRecord part ++ tail) (hsmall : part.length ≤ CHUNK) :
    (∃ r', r.nextBlock p name hashed = .ok (.block part r') ∧ r.stream = dataRecord part ++ r'.stream ∧ Moved r r' ∧
      r'.entryHashes = r.entryHashes) ∨
    (r.stream.length < (dataRecord part).length ∧ r.nextBlock p name hashed = .error (short r.ending)) := by
  have hchunk : CHUNK < 256 ^ 4 := by decide
  have hfits : part.length < 256 ^ 4 := by omega
  have hunpack := unpack_pack 4 part.length hfits
  have hlong : ¬ part.length > CHUNK := by omega
  rcases take_record h with ⟨r₁, r₂, r₃, htake₁, htake₂, htake₃, hs, hm, hh⟩ | ⟨hlen, herr⟩
  · refine Or.inl ⟨r₃, ?_, hs, hm, hh⟩
    simp [Reader.nextBlock, htake₁, htake₂, htake₃, Except.bind, Except.map, hunpack, hlong]
  · refine Or.inr ⟨?_, ?_⟩
    · simp only [dataRecord, List.length_cons, List.length_append, length_pack]
      omega
    · rcases herr with herr | ⟨r₁, htake₁, herr | ⟨r₂, htake₂, herr⟩⟩
      · simp [Reader.nextBlock, herr, Except.bind]
      · simp [Reader.nextBlock, htake₁, herr, Except.bind]
      · simp [Reader.nextBlock, htake₁, htake₂, herr, Except.bind, Except.map, hunpack, hlong]

/-- The digest of what has been read of an entry. -/
def digestOf (p : Platform) (hashed : Bytes) : Info := ⟨hashed.length, hexdigest (p.sha256 hashed)⟩

theorem nextBlock_end (name : String) (hashed : Bytes) {r : Reader} {tail : Bytes} (h : r.stream <+: Z :: tail) :
    (∃ r', r.nextBlock p name hashed = .ok (.finished r') ∧ r.stream = Z :: r'.stream ∧ Moved r r' ∧
      r'.entryHashes = Dict.set r.entryHashes name (digestOf p hashed)) ∨
    (r.stream.length < 1 ∧ r.nextBlock p name hashed = .error (short r.ending)) := by
  rcases take_prefix (a := [Z]) h with ⟨r₁, htake₁, hs₁, hm₁, hh₁⟩ | ⟨hlen, herr⟩
  · rw [List.length_singleton] at htake₁
    refine Or.inl ⟨{ r₁ with entryHashes := Dict.set r₁.entryHashes name (digestOf p hashed) }, ?_, hs₁,
      ⟨hm₁.plain, hm₁.ending⟩, by rw [hh₁]⟩
    simp [Reader.nextBlock, htake₁, Except.bind, tags.1.symm, digestOf]
  · refine Or.inr ⟨hlen, ?_⟩
    rw [List.length_singleton] at herr
    simp [Reader.nextBlock, herr, Except.bind]

theorem readBlocks_block {more : List Bytes → Bool} {name : String} {reading : Bool} {blocks : List Bytes}
    {hashed data : Bytes} {r r' : Reader} (h : r.nextBlock p name hashed = .ok (.block data r')) :
    r.readBlocks p more name reading blocks hashed =
      r'.readBlocks p more name (reading && more blocks) (if reading && more blocks then blocks ++ [data] else blocks)
        (hashed ++ data) := by
  rw [Reader.readBlocks]
  split
  · simp_all
  · simp_all
  · rename_i hstep
    rw [h] at hstep
    cases hstep
    rfl

theorem readBlocks_finished {more : List Bytes → Bool} {name : String} {reading : Bool} {blocks : List Bytes}
    {hashed : Bytes} {r r' : Reader} (h : r.nextBlock p name hashed = .ok (.finished r')) :
    r.readBlocks p more name reading blocks hashed = .ok (⟨name, blocks, reading && more blocks⟩, r') := by
  rw [Reader.readBlocks]
  split
  · simp_all
  · rename_i hstep
    rw [h] at hstep
    cases hstep
    rfl
  · simp_all

theorem readBlocks_error {more : List Bytes → Bool} {name : String} {reading : Bool} {blocks : List Bytes}
    {hashed : Bytes} {r : Reader} {e : Error} (h : r.nextBlock p name hashed = .error e) :
    r.readBlocks p more name reading blocks hashed = .error e := by
  rw [Reader.readBlocks]
  split <;> simp_all

/-- What a caller has seen that read some first parts of an entry. -/
structure SeenOf (more : List Bytes → Bool) (name : String) (reading : Bool) (blocks ps : List Bytes) (seen : Seen) :
    Prop where
  name_eq : seen.name = name
  blocks_eq : ∃ k, seen.blocks = blocks ++ ps.take k
  whole : seen.exhausted = true → seen.blocks = blocks ++ ps
  exhausted : reading = true → (∀ bs, more bs = true) → seen.exhausted = true
  stopped : reading = false → seen.blocks = blocks ∧ seen.exhausted = false

theorem seenOf_nil (more : List Bytes → Bool) (name : String) (reading : Bool) (blocks : List Bytes) :
    SeenOf more name reading blocks [] ⟨name, blocks, reading && more blocks⟩ where
  name_eq := rfl
  blocks_eq := ⟨0, by simp⟩
  whole := by simp
  exhausted := by
    intro hreading hmore
    simp [hreading, hmore]
  stopped := by
    intro hreading
    simp [hreading]

theorem SeenOf.cons {more : List Bytes → Bool} {name : String} {reading : Bool} {blocks ps : List Bytes}
    {part : Bytes} {seen : Seen}
    (h : SeenOf more name (reading && more blocks) (if reading && more blocks then blocks ++ [part] else blocks) ps
      seen) : SeenOf more name reading blocks (part :: ps) seen where
  name_eq := h.name_eq
  blocks_eq := by
    cases hread : reading && more blocks with
    | false => exact ⟨0, by simpa using (h.stopped hread).1.trans (by simp [hread])⟩
    | true =>
      obtain ⟨k, hk⟩ := h.blocks_eq
      exact ⟨k + 1, by simpa [hread] using hk⟩
  whole := by
    intro hexhausted
    cases hread : reading && more blocks with
    | false => simp [(h.stopped hread).2] at hexhausted
    | true => simpa [hread] using h.whole hexhausted
  exhausted := fun hreading hmore => h.exhausted (by simp [hreading, hmore]) hmore
  stopped := by
    intro hreading
    simpa [hreading] using h.stopped (by simp [hreading])

/-- The records of an entry after its name. -/
def blockRecords (ps : List Bytes) : Bytes := (ps.map dataRecord).flatten ++ [Z]

theorem readBlocks_parts (more : List Bytes → Bool) (name : String) (ps : List Bytes)
    (hsmall : ∀ x ∈ ps, x.length ≤ CHUNK) (tail : Bytes) (reading : Bool) (blocks : List Bytes) (hashed : Bytes)
    (r : Reader) (h : r.stream <+: blockRecords ps ++ tail) :
    (∃ seen r', r.readBlocks p more name reading blocks hashed = .ok (seen, r') ∧
      r.stream = blockRecords ps ++ r'.stream ∧ Moved r r' ∧
      r'.entryHashes = Dict.set r.entryHashes name (digestOf p (hashed ++ ps.flatten)) ∧
      SeenOf more name reading blocks ps seen) ∨
    (r.stream.length < (blockRecords ps).length ∧
      r.readBlocks p more name reading blocks hashed = .error (short r.ending)) := by
  induction ps generalizing reading blocks hashed r with
  | nil =>
    rcases nextBlock_end (p := p) name hashed h with ⟨r', hstep, hs, hm, hh⟩ | ⟨hlen, herr⟩
    · exact Or.inl ⟨_, r', readBlocks_finished hstep, hs, hm, by simpa using hh, seenOf_nil more name reading blocks⟩
    · exact Or.inr ⟨hlen, readBlocks_error herr⟩
  | cons part ps ih =>
    have happ : blockRecords (part :: ps) = dataRecord part ++ blockRecords ps := by simp [blockRecords]
    rw [happ, List.append_assoc] at h
    rw [happ]
    rcases nextBlock_data (p := p) name hashed h (hsmall part (by simp)) with ⟨r₁, hstep, hs₁, hm₁, hh₁⟩ | ⟨hlen, herr⟩
    · rw [readBlocks_block hstep]
      rcases ih (fun x hx => hsmall x (by simp [hx])) (reading && more blocks)
        (if reading && more blocks then blocks ++ [part] else blocks) (hashed ++ part) r₁ (prefix_after h hs₁) with
        ⟨seen, r', hread, hs', hm', hh', hseen⟩ | ⟨hlen, herr⟩
      · refine Or.inl ⟨seen, r', hread, ?_, hm₁.trans hm', ?_, hseen.cons⟩
        · rw [hs₁, hs', List.append_assoc]
        · rw [hh', hh₁]
          simp
      · refine Or.inr ⟨?_, ?_⟩
        · rw [hs₁, List.length_append, List.length_append]
          omega
        · rw [herr, hm₁.ending]
    · refine Or.inr ⟨?_, readBlocks_error herr⟩
      rw [List.length_append]
      omega

theorem nextEntry_entry {r : Reader} {name : String} {tail : Bytes} (h : r.stream <+: entryRecord name ++ tail)
    (hlen : (encode name).length < 256 ^ 2) :
    (∃ r', r.nextEntry = .ok (some name, r') ∧ r.stream = entryRecord name ++ r'.stream ∧ Moved r r' ∧
      r'.entryHashes = r.entryHashes) ∨
    (r.stream.length < (entryRecord name).length ∧ r.nextEntry = .error (short r.ending)) := by
  have hunpack := unpack_pack 2 (encode name).length hlen
  rcases take_record h with ⟨r₁, r₂, r₃, htake₁, htake₂, htake₃, hs, hm, hh⟩ | ⟨hshort, herr⟩
  · refine Or.inl ⟨r₃, ?_, hs, hm, hh⟩
    simp [Reader.nextEntry, htake₁, htake₂, htake₃, Except.bind, hunpack, tags.2]
  · refine Or.inr ⟨?_, ?_⟩
    · simp only [entryRecord, List.length_cons, List.length_append, length_pack]
      omega
    · rcases herr with herr | ⟨r₁, htake₁, herr | ⟨r₂, htake₂, herr⟩⟩
      · simp [Reader.nextEntry, herr, Except.bind]
      · simp [Reader.nextEntry, htake₁, herr, Except.bind, tags.2]
      · simp [Reader.nextEntry, htake₁, htake₂, herr, Except.bind, hunpack, tags.2]

/-- At the end of the archive nothing is left, and the ending of the encrypted stream decides. -/
theorem nextEntry_end {r : Reader} (h : r.stream <+: [X]) (hne : ∀ x ∈ r.plain, x ≠ []) :
    (∃ r', r.nextEntry = .ok (none, r') ∧ r.stream = [X] ∧ r.ending = .ok () ∧ r'.entryHashes = r.entryHashes) ∨
    ((r.stream = [] ∨ ∃ e, r.ending = .error e) ∧ r.nextEntry = .error (short r.ending)) := by
  rcases take_prefix (a := [X]) (b := []) h with ⟨r₁, htake₁, hs₁, hm₁, hh₁⟩ | ⟨hlen, herr⟩
  · rw [List.length_singleton] at htake₁
    have hnil : r₁.stream = [] := List.prefix_nil.mp (prefix_after (a := [X]) (b := []) h hs₁)
    obtain ⟨hrest, hflat⟩ := List.append_eq_nil_iff.mp hnil
    have hplain : r₁.plain = [] := by
      cases hp : r₁.plain with
      | nil => rfl
      | cons x xs =>
        rw [hp] at hflat
        have hx : x = [] := (List.append_eq_nil_iff.mp hflat).1
        exact absurd hx (hne x (hm₁.plain.subset (by simp [hp])))
    cases he : r.ending with
    | ok u =>
      refine Or.inl ⟨r₁, ?_, by rw [hs₁, hnil]; rfl, rfl, hh₁⟩
      simp [Reader.nextEntry, htake₁, Except.bind, hrest, hplain, hm₁.ending, he]
    | error e =>
      refine Or.inr ⟨Or.inr ⟨e, rfl⟩, ?_⟩
      simp [Reader.nextEntry, htake₁, Except.bind, hrest, hplain, hm₁.ending, he, short]
  · rw [List.length_singleton] at hlen herr
    refine Or.inr ⟨Or.inl (List.length_eq_zero_iff.mp (by omega)), ?_⟩
    simp [Reader.nextEntry, herr, Except.bind]

theorem entries_end {more : String → List Bytes → Bool} {r r' : Reader} (h : r.nextEntry = .ok (none, r')) :
    r.entries p more = .ok ([], r') := by
  rw [Reader.entries]
  split
  · simp_all
  · rename_i hstep
    rw [h] at hstep
    cases hstep
    rfl
  · simp_all

theorem entries_error {more : String → List Bytes → Bool} {r : Reader} {e : Error} (h : r.nextEntry = .error e) :
    r.entries p more = .error e := by
  rw [Reader.entries]
  split <;> simp_all

theorem entries_entry {more : String → List Bytes → Bool} {name : String} {r r' : Reader}
    (h : r.nextEntry = .ok (some name, r')) :
    r.entries p more = (r'.readBlocks p (more name) name true [] []).bind fun read =>
      (read.2.entries p more).map fun result => (read.1 :: result.1, result.2) := by
  rw [Reader.entries]
  split
  · simp_all
  · simp_all
  · rename_i hstep
    rw [h] at hstep
    cases hstep
    split
    · rename_i hread
      rw [hread]
      rfl
    · rename_i hread
      rw [hread]
      rfl

/-- What a caller has seen of an entry. -/
def SeenEntry (more : String → List Bytes → Bool) (e : Entry) (seen : Seen) : Prop :=
  SeenOf (more e.name) e.name true [] (parts e) seen

/-- The walk over a beginning of a written stream. It succeeds on the whole stream
if the encrypted file ends there, and raises the ending of the file otherwise. -/
theorem entries_inputs (more : String → List Bytes → Bool) (es : List Entry)
    (hnames : ∀ e ∈ es, (encode e.name).length < 256 ^ 2) (r : Reader) (h : r.stream <+: (fileInputs es).flatten)
    (hne : ∀ x ∈ r.plain, x ≠ []) :
    (∃ seens r', r.entries p more = .ok (seens, r') ∧ r.stream = (fileInputs es).flatten ∧ r.ending = .ok () ∧
      List.Forall₂ (SeenEntry more) es seens ∧ r'.entryHashes = infos p id r.entryHashes es) ∨
    ((r.stream ≠ (fileInputs es).flatten ∨ ∃ e, r.ending = .error e) ∧
      r.entries p more = .error (short r.ending)) := by
  induction es generalizing r with
  | nil =>
    have hall : (fileInputs []).flatten = [X] := rfl
    rw [hall] at h ⊢
    rcases nextEntry_end h hne with ⟨r', hstep, hs, he, hh⟩ | ⟨hcut, herr⟩
    · exact Or.inl ⟨[], r', entries_end hstep, hs, he, .nil, hh⟩
    · refine Or.inr ⟨hcut.imp_left (fun hs => by simp [hs]), entries_error herr⟩
  | cons e es ih =>
    have hall : (fileInputs (e :: es)).flatten =
        entryRecord e.name ++ (blockRecords (parts e) ++ (fileInputs es).flatten) := by
      simp [fileInputs, entryInputs, blockRecords]
    rw [hall] at h ⊢
    rcases nextEntry_entry h (hnames e (by simp)) with ⟨r₁, hentry, hs₁, hm₁, hh₁⟩ | ⟨hlen, herr⟩
    · have h₁ := prefix_after h hs₁
      rw [entries_entry hentry]
      rcases readBlocks_parts (p := p) (more e.name) e.name (parts e) (fun x hx => length_of_mem_parts hx)
        (fileInputs es).flatten true [] [] r₁ h₁ with ⟨seen, r₂, hblocks, hs₂, hm₂, hh₂, hseen⟩ | ⟨hlen, herr⟩
      · have hmoved := hm₁.trans hm₂
        rw [hblocks, Except.bind, ← hmoved.ending]
        rcases ih (fun e' he' => hnames e' (by simp [he'])) r₂ (prefix_after h₁ hs₂)
          (fun x hx => hne x (hmoved.plain.subset hx)) with ⟨seens, r', hread, hs', he', hseens, hh'⟩ | ⟨hcut, herr⟩
        · refine Or.inl ⟨seen :: seens, r', by rw [hread]; rfl, by rw [hs₁, hs₂, hs'], he', .cons hseen hseens, ?_⟩
          rw [hh', hh₂, hh₁, List.nil_append, flatten_parts]
          rfl
        · refine Or.inr ⟨hcut.imp_left (fun hs heq => hs ?_), by rw [herr]; rfl⟩
          rw [hs₁, hs₂] at heq
          exact List.append_cancel_left (List.append_cancel_left heq)
      · refine Or.inr ⟨Or.inl (fun heq => ?_), by rw [herr, hm₁.ending]; rfl⟩
        rw [hs₁] at heq
        have hstream := List.append_cancel_left heq
        rw [hstream, List.length_append] at hlen
        omega
    · refine Or.inr ⟨Or.inl (fun heq => ?_), entries_error herr⟩
      rw [heq, List.length_append] at hlen
      omega

/-! ## The whole file -/

theorem infos_some (es : List Entry) (d : List (String × Info)) :
    infos p some (d.map (fun i => (some i.1, i.2))) es = (infos p id d es).map (fun i => (some i.1, i.2)) := by
  have hset : ∀ (d : List (String × Info)) (name : String) (info : Info),
      Dict.set (d.map (fun i => (some i.1, i.2))) (some name) info =
        (Dict.set d name info).map (fun i => (some i.1, i.2)) := by
    intro d name info
    induction d with
    | nil => rfl
    | cons i d ih =>
      simp only [List.map_cons, Dict.set, Option.some.injEq]
      split
      · rfl
      · simp [ih]
  unfold infos
  induction es generalizing d with
  | nil => rfl
  | cons e es ih =>
    simp only [List.foldl_cons, hset, id]
    exact ih _

theorem seen_prefix {more : String → List Bytes → Bool} {e : Entry} {seen : Seen} (h : SeenEntry more e seen) :
    seen.blocks.flatten <+: e.contents := by
  obtain ⟨k, hk⟩ := h.blocks_eq
  rw [hk, List.nil_append, ← flatten_parts]
  exact ⟨((parts e).drop k).flatten, by rw [← List.flatten_append, List.take_append_drop]⟩

theorem seen_names {more : String → List Bytes → Bool} {es : List Entry} {seens : List Seen}
    (h : List.Forall₂ (SeenEntry more) es seens) : seens.map Seen.name = es.map Entry.name := by
  induction h with
  | nil => rfl
  | cons hseen _ ih => rw [List.map_cons, List.map_cons, hseen.name_eq, ih]

/-- A finished file whose header is accepted is read back without an error: the
names in their order, the contents of each entry that the caller reads to its
end and the beginning of each that it abandons, and the digests of the writer. -/
theorem file_reads_back (p : Platform) (hlaw : Lawful p) (nonces : Nat → Bytes) (hn : ∀ i, (nonces i).length = 12)
    (salt : Bytes) (passphrase : String) (header : List (String × Json)) (es : List Entry) (w : Writer)
    (sha : List Char) (hw : writeFile p nonces salt passphrase header es = .ok (w, sha))
    (hjson : ∀ key raw, derive_key p passphrase salt SCRYPT_N SCRYPT_R SCRYPT_P = some key →
      p.dumps (headOf p salt key header) = some raw → JsonReads p (headOf p salt key header) raw)
    (hheader : ∃ x, read_header p w.out = .ok x) (more : String → List Bytes → Bool) :
    ∃ seens hashes, readFile p more passphrase w.out = .ok (seens, hashes) ∧
      seens.map Seen.name = es.map Entry.name ∧
      List.Forall₂ (fun e seen => seen.blocks.flatten <+: e.contents ∧
        (seen.exhausted = true → seen.blocks.flatten = e.contents) ∧
        ((∀ blocks, more e.name blocks = true) → seen.exhausted = true)) es seens ∧
      w.entries = hashes.map (fun i => (some i.1, i.2)) := by
  obtain ⟨key, raw, done, last, hfile⟩ := writeFile_ok hw
  have hs := hfile.streams
  have hout : w.out = startOf raw ++ chunks p key (p.sha256 (startOf raw)) nonces 0 (done ++ [(last, true)]) := hs.out
  have hstream : ((done.map Prod.fst) ++ [last]).flatten = deflated p (fileInputs es) := by
    simpa [joined, hfile.sealed] using hs.stream_eq
  obtain ⟨outs, hinf, hflat⟩ := hlaw.zlib _ _ hstream
  have hfits : 0 + done.length < 256 ^ 8 := by
    have hlen := hs.fits
    rw [List.length_append, List.length_singleton] at hlen
    omega
  obtain ⟨hending, hitems⟩ := decrypted_chunks key (p.sha256 (startOf raw)) hlaw hn last
    (hs.small (last, true) (by simp)) done hfile.opened (fun x hx => hs.small x (by simp [hx])) 0 hfits [] outs hinf
  rw [hout] at hheader
  obtain ⟨header', hread, hunlock⟩ := read_header_start hlaw.base64 hfile.derived
    (hjson key raw hfile.derived hfile.dumped) hfile.fits hheader
  let r : Reader := ⟨[], (decrypted p key (p.sha256 (startOf raw)) 0 []
    (chunks p key (p.sha256 (startOf raw)) nonces 0 (done ++ [(last, true)]))).items, .ok (), []⟩
  have hr : r.stream = (fileInputs es).flatten := by
    rw [← hflat]
    simpa [r, Reader.stream] using hitems
  have hwalk := entries_inputs (p := p) more es hfile.names r (hr ▸ List.prefix_refl _) (decrypted_noEmpty _ _ _ _ _)
  rcases hwalk with ⟨seens, r', hentries, -, -, hall, hh⟩ | ⟨hcut | ⟨e, he⟩, -⟩
  · refine ⟨seens, r'.entryHashes, ?_, seen_names hall, ?_, ?_⟩
    · simp [readFile, Reader.open, hout, hread, hunlock, hending, hentries, Except.bind, Except.map, r]
    · refine hall.imp fun e seen hseen => ⟨ seen_prefix hseen, ?_, hseen.exhausted rfl⟩
      intro hexhausted
      rw [hseen.whole hexhausted, List.nil_append, flatten_parts]
    · rw [hfile.entries, hh]
      exact infos_some es []
  · exact absurd hr hcut
  · exact absurd he (by simp [r])

/-- Bytes as the characters of the same numbers. -/
def latin (bytes : Bytes) : String := String.ofList (bytes.map (fun b => Char.ofNat b.toNat))

def unlatin (s : String) : Option Bytes := some (s.toList.map (fun c => UInt8.ofNat c.toNat))

theorem unlatin_latin (bytes : Bytes) : unlatin (latin bytes) = some bytes := by
  simp [unlatin, latin, byte_of_char, Function.comp_def]

/-- Libraries that only tag, copy and number, for a header without own fields. -/
def plainPlatform : Platform where
  scrypt _ salt _ _ _ := some salt
  hmac key _ := key
  sha256 bytes := bytes
  encrypt _ _ plain _ := plain ++ List.replicate 16 0
  decrypt _ _ ct _ := some (ct.take (ct.length - 16))
  compress _ x := x
  flush _ := []
  decompress _ x := some x
  unflush _ := []
  dumps _ := some [0x7B, 0x7D]
  loads _ := .value (.obj [("format", .int 1), ("kdf", .obj [("name", .str "scrypt"), ("salt", .str "s"),
    ("n", .int 32768), ("r", .int 8), ("p", .int 1)]), ("cipher", .str "AES-256-GCM"), ("compression", .str "zlib"),
    ("check", .str "s")])
  b64encode := latin
  b64decode := unlatin
  int _ := none

def twoEntries : List Entry := [⟨"manifest.json", [[0x7B], [], [0x7D]]⟩, ⟨"empty", []⟩]

def exampleFile : Except WriteError (Writer × List Char) :=
  writeFile plainPlatform (fun _ => List.replicate 12 0) [0x73] "secret" [] twoEntries

/-- A library that copies its input undoes itself. -/
theorem zlibUndoes_of_copy (p : Platform) (hc : ∀ fed x, p.compress fed x = x) (hf : ∀ fed, p.flush fed = [])
    (hd : ∀ fed x, p.decompress fed x = some x) (hu : ∀ fed, p.unflush fed = []) : ZlibUndoes p := by
  have hdeflating : ∀ inputs fed, deflating p fed inputs = inputs.flatten := by
    intro inputs
    induction inputs with
    | nil => exact fun _ => rfl
    | cons x inputs ih =>
      intro fed
      rw [deflating, ih, hc]
      rfl
  have hinflating : ∀ chunks fed, inflating p fed chunks = some chunks := by
    intro chunks
    induction chunks with
    | nil => exact fun _ => rfl
    | cons x chunks ih =>
      intro fed
      rw [inflating, ih, hd]
      rfl
  intro inputs chunks h
  refine ⟨chunks, hinflating chunks [], ?_⟩
  rw [h, deflated, hdeflating, hf, hu]
  simp

theorem plainPlatform_lawful : Lawful plainPlatform where
  zlib := zlibUndoes_of_copy plainPlatform (fun _ _ => rfl) (fun _ => rfl) (fun _ _ => rfl) (fun _ => rfl)
  gcm := by
    intro key nonce plain aad
    simp [plainPlatform]
  tag := by
    intro key nonce plain aad
    simp [plainPlatform]
  base64 := unlatin_latin

/-- A file with two entries, of which one is empty and the other abandoned after its first block. -/
theorem two_entries_read_back : ∃ w sha seens hashes, exampleFile = .ok (w, sha) ∧
    readFile plainPlatform (fun _ blocks => blocks.length < 1) "secret" w.out = .ok (seens, hashes) ∧
    seens.map Seen.name = ["manifest.json", "empty"] := by
  have hok : (exampleFile.toOption.map fun f => (f.1.key, (read_header plainPlatform f.1.out).isOk)) =
      some ([0x73], true) := by with_unfolding_all decide
  obtain ⟨⟨w, sha⟩, hw, hread⟩ := Option.map_eq_some_iff.mp hok
  have hw' : exampleFile = .ok (w, sha) := by
    cases h : exampleFile with
    | error e => simp [h, Except.toOption] at hw
    | ok f => simpa [h, Except.toOption] using hw
  have hheader : ∃ x, read_header plainPlatform w.out = .ok x := by
    cases h : read_header plainPlatform w.out with
    | error e => simp [h, Except.isOk, Except.toBool] at hread
    | ok x => exact ⟨x, rfl⟩
  have hjson : ∀ key raw, derive_key plainPlatform "secret" [0x73] SCRYPT_N SCRYPT_R SCRYPT_P = some key →
      plainPlatform.dumps (headOf plainPlatform [0x73] key []) = some raw →
      JsonReads plainPlatform (headOf plainPlatform [0x73] key []) raw := by
    intro key raw hkey _
    have hkey' : key = [0x73] := by simpa [derive_key, plainPlatform] using hkey.symm
    have hlatin : latin [0x73] = "s" := by with_unfolding_all decide
    subst hkey'
    refine ⟨_, rfl, fun path => ?_⟩
    simp [headOf, Dict.set, plainPlatform, _check_value, hlatin, FORMAT, SCRYPT_N, SCRYPT_R, SCRYPT_P]
  obtain ⟨seens, hashes, hfile, hnames, -⟩ := file_reads_back plainPlatform plainPlatform_lawful
    (fun _ => List.replicate 12 0) (by simp) [0x73] "secret" [] twoEntries w sha hw' hjson hheader
    (fun _ blocks => blocks.length < 1)
  exact ⟨w, sha, seens, hashes, hw', hfile, hnames⟩

end RoundTrip
