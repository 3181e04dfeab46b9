import Ngcorion.Sysbackup.RoundTrip

/-!
# Reading a file that was changed

Under an ideal cipher only the chunks that the writer sealed can be opened, each
at its own index and with its own final flag, and only under the header it was
sealed with. A file that is read to the end without an exception is therefore
the file that was written. Any other file ends in a `BackupFormatError` or a
`WrongPassphrase`, except where its header makes the header's own reading raise
something else.
-/
namespace TamperEvident

open Octets Container Written RoundTrip

variable {p : Platform}

/-! ## The cipher -/

/-- The cipher under the key of a file opens what was sealed, and nothing else. -/
structure Ideal (p : Platform) (key : Bytes) (sealed : List Seal) : Prop where
  opens : ∀ s ∈ sealed, p.decrypt key s.nonce (ctOf p key s) s.aad = some s.plain
  only : ∀ nonce ct aad plain, p.decrypt key nonce ct aad = some plain →
    ∃ s ∈ sealed, s.nonce = nonce ∧ s.aad = aad ∧ ctOf p key s = ct

theorem flag_injective {a b : Bool} (h : flag a = flag b) : a = b := by
  revert h
  cases a <;> cases b <;> decide

theorem aadOf_injective {d d' : Bytes} (hlen : d.length = d'.length) {i i' : Nat} (hi : i < 256 ^ 8)
    (hi' : i' < 256 ^ 8) {f f' : Bool} (h : aadOf d i f = aadOf d' i' f') : d = d' ∧ i = i' ∧ f = f' := by
  obtain ⟨hd, h⟩ := List.append_inj h hlen
  obtain ⟨hpack, hflag⟩ := List.append_inj h (by rw [length_pack, length_pack])
  exact ⟨hd, pack_injective hi hi' hpack, flag_injective (by simpa using hflag)⟩

theorem mem_seals {digest : Bytes} {nonces : Nat → Bytes} {s : Seal} (xs : List Piece) (index : Nat)
    (h : s ∈ seals digest nonces index xs) : ∃ j x, xs[j]? = some x ∧ s = sealOf digest nonces (index + j) x := by
  induction xs generalizing index with
  | nil => simp [seals] at h
  | cons x xs ih =>
    rcases List.mem_cons.mp h with rfl | h
    · exact ⟨0, x, rfl, rfl⟩
    · obtain ⟨j, y, hy, hs⟩ := ih (index + 1) h
      exact ⟨j + 1, y, by simpa using hy, by rw [hs]; congr 1; omega⟩

theorem seals_mem {digest : Bytes} {nonces : Nat → Bytes} (xs : List Piece) (index : Nat) {j : Nat} {x : Piece}
    (h : xs[j]? = some x) : sealOf digest nonces (index + j) x ∈ seals digest nonces index xs := by
  induction xs generalizing index j with
  | nil => simp at h
  | cons y xs ih =>
    cases j with
    | zero =>
      simp only [List.getElem?_cons_zero, Option.some.injEq] at h
      simp [seals, h]
    | succ j =>
      have hmem := ih (index + 1) (by simpa using h)
      have hindex : index + 1 + j = index + (j + 1) := by omega
      rw [hindex] at hmem
      exact List.mem_cons_of_mem _ hmem

/-! ## The chunks of a changed file -/

theorem nextFrame_error {file : Bytes} {e : Error} (h : nextFrame file = .error e) : ∃ c, e = .format c := by
  unfold nextFrame at h
  cases hd : file.drop 4 with
  | nil =>
    simp only [hd] at h
    cases h
    exact ⟨_, rfl⟩
  | cons final rest =>
    simp only [hd] at h
    split_ifs at h
    · cases h
      exact ⟨_, rfl⟩
    · cases h
      exact ⟨_, rfl⟩

/-- A frame is what stands at the beginning of the file. -/
theorem nextFrame_eq {file : Bytes} {f : Framed} (h : nextFrame file = .ok f) :
    file = frameOf f.final f.nonce f.ct ++ f.rest := by
  unfold nextFrame at h
  cases hd : file.drop 4 with
  | nil => simp [hd] at h
  | cons final tail =>
    simp only [hd] at h
    split_ifs at h with hhead hbody
    cases h
    obtain ⟨-, hfinal⟩ := not_or.mp hhead
    obtain ⟨-, hct⟩ := not_or.mp hbody
    rw [not_not] at hfinal hct
    have hlen : (file.take 4).length = 4 := by
      rw [List.length_take]
      have hpos : 0 < (file.drop 4).length := by simp [hd]
      rw [List.length_drop] at hpos
      omega
    have hflag : flag (decide (final = 1)) = final := by
      rcases hfinal with h0 | h1
      · simp [flag, h0]
      · simp [flag, h1]
    have hpack : pack 4 (unpack (file.take 4)) = file.take 4 := by
      have h4 := pack_unpack (file.take 4)
      rwa [hlen] at h4
    have hfive : file.drop 5 = tail := by
      rw [show (5 : Nat) = 4 + 1 from rfl, ← List.drop_drop, hd]
      rfl
    rw [hfive] at hct
    simp only [frameOf, hct, hpack, hflag, hfive, List.append_assoc, List.cons_append, List.take_append_drop]
    rw [← hd, List.take_append_drop]

section Changed

variable {key digest digest' : Bytes} {nonces : Nat → Bytes} {all : List Piece}

/-- A chunk that can be opened is the one sealed at its index. -/
theorem opened_chunk (hideal : Ideal p key (seals digest nonces 0 all)) (hlen : digest'.length = digest.length)
    (hall : all.length ≤ 256 ^ 8) {index : Nat} (hindex : index < 256 ^ 8) {final : Bool} {nonce ct plain : Bytes}
    (h : p.decrypt key nonce ct (aadOf digest' index final) = some plain) :
    digest' = digest ∧ all[index]? = some (plain, final) ∧
      frameOf final nonce ct = chunkOf p key digest nonces index (plain, final) := by
  obtain ⟨s, hs, hnonce, haad, hct⟩ := hideal.only _ _ _ _ h
  obtain ⟨j, x, hx, rfl⟩ := mem_seals all 0 hs
  have hj : j < all.length := by
    by_contra hn
    rw [List.getElem?_eq_none (by omega)] at hx
    simp at hx
  rw [Nat.zero_add] at hnonce haad hct hs
  obtain ⟨hdigest, rfl, hflag⟩ := aadOf_injective hlen.symm (by omega) hindex haad
  have hopens := hideal.opens _ hs
  have hplain : x.1 = plain := by
    rw [hct] at hopens
    change p.decrypt key (nonces j) ct (aadOf digest j x.2) = some x.1 at hopens
    change nonces j = nonce at hnonce
    rw [hnonce, hflag, hdigest, h] at hopens
    exact (Option.some.inj hopens).symm
  have hxeq : x = (plain, final) := Prod.ext hplain hflag
  subst hxeq
  refine ⟨hdigest.symm, hx, ?_⟩
  rw [chunkOf, hct]
  exact congrArg (frameOf final · ct) hnonce.symm

/-- One chunk of any file: it is refused, or it is the one that was sealed there. -/
theorem decrypted_step (hideal : Ideal p key (seals digest nonces 0 all)) (hlen : digest'.length = digest.length)
    (hall : all.length ≤ 256 ^ 8) {index : Nat} {piece : Piece} (hpiece : all[index]? = some piece)
    {fed : List Bytes} {out : Bytes} (hzip : p.decompress fed piece.1 = some out) (file : Bytes) :
    (∃ c, decrypted p key digest' index fed file = ⟨[], .error (.format c)⟩) ∨
    (digest' = digest ∧ ∃ rest, file = chunkOf p key digest nonces index piece ++ rest ∧
      decrypted p key digest' index fed file = .yields out
        (if piece.2 then
          .yields (p.unflush (fed ++ [piece.1])) ⟨[], if rest = [] then .ok () else .error (.format .dataAfterBackup)⟩
         else decrypted p key digest' (index + 1) (fed ++ [piece.1]) rest)) := by
  have hindex : index < 256 ^ 8 := by
    by_contra hn
    rw [List.getElem?_eq_none (by omega)] at hpiece
    simp at hpiece
  rw [decrypted]
  split
  · rename_i e he
    obtain ⟨c, rfl⟩ := nextFrame_error he
    exact Or.inl ⟨c, rfl⟩
  · rename_i f hf
    rw [aad_fits f.final hindex]
    dsimp only
    cases hopen : p.decrypt key f.nonce f.ct (aadOf digest' index f.final) with
    | none => exact Or.inl ⟨.chunkFailed index, rfl⟩
    | some plain =>
      obtain ⟨hdigest, hat, hframe⟩ := opened_chunk hideal hlen hall hindex hopen
      rw [hpiece, Option.some.injEq] at hat
      subst hat
      refine Or.inr ⟨hdigest, f.rest, ?_, ?_⟩
      · rw [← hframe]
        exact nextFrame_eq hf
      · dsimp only at hzip ⊢
        rw [hzip]

/-- What is decrypted of any file is a beginning of what was written, and it ends
with a `BackupFormatError` unless the file is the written one. -/
theorem decrypted_changed (hideal : Ideal p key (seals digest nonces 0 all)) (hlen : digest'.length = digest.length)
    (hall : all.length ≤ 256 ^ 8) (last : Bytes) (done : List Piece) (hopen : AllOpen done) (before : List Piece)
    (heq : all = before ++ (done ++ [(last, true)])) (fed outs : List Bytes)
    (hinf : inflating p fed (done.map Prod.fst ++ [last]) = some outs) (file : Bytes) :
    (digest' = digest ∧ file = chunks p key digest nonces before.length (done ++ [(last, true)])) ∨
    ((∃ c, (decrypted p key digest' before.length fed file).ending = .error (.format c)) ∧
      (decrypted p key digest' before.length fed file).items.flatten <+:
        outs.flatten ++ p.unflush (fed ++ (done.map Prod.fst ++ [last]))) := by
  have hbefore : before.length < 256 ^ 8 := by
    rw [heq] at hall
    simp only [List.length_append, List.length_singleton] at hall
    omega
  induction done generalizing before fed outs file with
  | nil =>
    simp only [List.map_nil, List.nil_append, inflating, Option.bind_eq_some_iff, Option.map_some,
      Option.some.injEq] at hinf
    obtain ⟨out, hout, rfl⟩ := hinf
    have hpiece : all[before.length]? = some (last, true) := by simp [heq]
    rcases decrypted_step hideal hlen hall hpiece hout file with ⟨c, hc⟩ | ⟨hdigest, rest, hfile, hdec⟩
    · rw [hc]
      exact Or.inr ⟨⟨c, rfl⟩, List.nil_prefix⟩
    · by_cases hrest : rest = []
      · refine Or.inl ⟨hdigest, ?_⟩
        rw [hfile, hrest]
        rfl
      · rw [hdec]
        refine Or.inr ⟨⟨.dataAfterBackup, by simp [hrest]⟩, by simp⟩
  | cons piece done ih =>
    obtain ⟨x, final⟩ := piece
    have hfinal : final = false := hopen (x, final) (by simp)
    subst hfinal
    simp only [List.map_cons, List.cons_append, inflating, Option.bind_eq_some_iff, Option.map_eq_some_iff] at hinf
    obtain ⟨out, hout, outs', hinf', rfl⟩ := hinf
    have hpiece : all[before.length]? = some (x, false) := by simp [heq]
    rcases decrypted_step hideal hlen hall hpiece hout file with ⟨c, hc⟩ | ⟨hdigest, rest, hfile, hdec⟩
    · rw [hc]
      exact Or.inr ⟨⟨c, rfl⟩, List.nil_prefix⟩
    · have hlater := ih (fun y hy => hopen y (by simp [hy])) (before ++ [(x, false)]) (by simp [heq]) (fed ++ [x]) outs'
        hinf' rest (by
          rw [heq] at hall
          simp only [List.length_append, List.length_cons, List.length_nil] at hall ⊢
          omega)
      rw [List.length_append, List.length_singleton] at hlater
      simp only [Bool.false_eq_true, if_false] at hdec
      rcases hlater with ⟨-, hrest⟩ | ⟨hending, hprefix⟩
      · refine Or.inl ⟨hdigest, ?_⟩
        rw [hfile, hrest]
        rfl
      · rw [hdec, yields_ending, yields_flatten]
        refine Or.inr ⟨hending, ?_⟩
        simpa using hprefix

end Changed

/-! ## The header of a changed file -/

/-- A `BackupFormatError` or a `WrongPassphrase`. -/
def isRefusal : Error → Bool
  | .format _ => true
  | .passphrase => true
  | _ => false

def isNumber : Converted → Bool
  | .number _ => true
  | _ => false

/-- The first of the three numbers of the key derivation that is no number for
`int` is an infinity. -/
def meetsInfinity (p : Platform) (header : List (String × Json)) : Bool :=
  (["n", "r", "p"].map fun key => pyInt p (kdfField header key)).find? (fun c => !isNumber c) = some .overflow

/-- The header text makes its own reading raise something else than a
`BackupFormatError`: it is nested too deep, it is JSON but not an object, or the
key derivation has an infinite number. -/
def headerRaises (p : Platform) (file : Bytes) : Bool :=
  match headerText file with
  | .error _ => false
  | .ok (raw, _) =>
    match p.loads raw with
    | .invalid => false
    | .tooDeep => true
    | .value (.obj header) =>
      isFormat (Dict.get header "format") && (pyB64decode p (kdfField header "salt")).isSome && meetsInfinity p header
    | .value _ => true

theorem headerText_error {file : Bytes} {e : Error} (h : headerText file = .error e) : isRefusal e = true := by
  unfold headerText at h
  dsimp only at h
  split_ifs at h <;> cases h <;> rfl

/-- The header text of a file stands at its beginning. -/
theorem headerText_eq {file raw rest : Bytes} (h : headerText file = .ok (raw, rest)) : file = startOf raw ++ rest := by
  unfold headerText at h
  dsimp only at h
  split_ifs at h with hmagic hsize hlarge hraw
  simp only [not_not] at hmagic hsize hraw
  cases h
  have hpack : pack 4 (unpack ((file.drop MAGIC.length).take 4)) = (file.drop MAGIC.length).take 4 := by
    have h4 := pack_unpack ((file.drop MAGIC.length).take 4)
    rwa [hsize] at h4
  rw [startOf, hraw, hpack, List.append_assoc, List.append_assoc, List.take_append_drop, List.take_append_drop]
  nth_rewrite 1 [← List.take_append_drop MAGIC.length file]
  rw [hmagic]

theorem meetsInfinity_iff (header : List (String × Json)) :
    meetsInfinity p header = true ↔ kdfNumbers p header = .error .overflow := by
  unfold meetsInfinity kdfNumbers
  cases hn : pyInt p (kdfField header "n") <;> cases hr : pyInt p (kdfField header "r") <;>
    cases hp : pyInt p (kdfField header "p") <;> simp [hn, hr, hp, isNumber]

theorem kdfNumbers_error {header : List (String × Json)} {e : Error} (h : kdfNumbers p header = .error e) :
    isRefusal e = true ∨ e = .overflow := by
  unfold kdfNumbers at h
  cases hn : pyInt p (kdfField header "n") <;> simp only [hn] at h
  · cases hr : pyInt p (kdfField header "r") <;> simp only [hr] at h
    · cases hp : pyInt p (kdfField header "p") <;> simp only [hp] at h
      · simp at h
      · cases h
        exact Or.inl rfl
      · cases h
        exact Or.inr rfl
    · cases h
      exact Or.inl rfl
    · cases h
      exact Or.inr rfl
  · cases h
    exact Or.inl rfl
  · cases h
    exact Or.inr rfl

/-- An error of `unlock` is a refusal, or it is the one of an infinite number. -/
theorem unlock_error {header : List (String × Json)} {passphrase : String} {e : Error}
    (h : unlock p header passphrase = .error e) :
    isRefusal e = true ∨
      ((pyB64decode p (kdfField header "salt")).isSome = true ∧ meetsInfinity p header = true ∧ e = .overflow) := by
  unfold unlock at h
  cases hsalt : pyB64decode p (kdfField header "salt") with
  | none =>
    simp only [hsalt] at h
    cases h
    exact Or.inl rfl
  | some salt =>
    simp only [hsalt] at h
    cases hnumbers : kdfNumbers p header with
    | error e' =>
      simp only [hnumbers] at h
      cases h
      rcases kdfNumbers_error hnumbers with he | rfl
      · exact Or.inl he
      · exact Or.inr ⟨rfl, (meetsInfinity_iff header).mpr hnumbers, rfl⟩
    | ok nrq =>
      obtain ⟨n, r, q⟩ := nrq
      simp only [hnumbers] at h
      refine Or.inl ?_
      split at h
      · cases h
        rfl
      · split at h
        · cases h
          rfl
        · split_ifs at h
          cases h
          rfl

theorem unlock_infinite {header : List (String × Json)} (passphrase : String)
    (hsalt : (pyB64decode p (kdfField header "salt")).isSome = true) (h : meetsInfinity p header = true) :
    unlock p header passphrase = .error .overflow := by
  obtain ⟨salt, hsalt⟩ := Option.isSome_iff_exists.mp hsalt
  simp only [unlock, hsalt, (meetsInfinity_iff header).mp h]

/-! ## The whole file -/

/-- Opening a file whose header raises nothing of its own: a refusal, or a reader
over what the key opens. -/
theorem open_cases (file : Bytes) (passphrase : String) (h : headerRaises p file = false) :
    (∃ e, Reader.open p file passphrase = .error e ∧ isRefusal e = true) ∨
    ∃ raw rest header key, file = startOf raw ++ rest ∧
      read_header p file = .ok (header, p.sha256 (startOf raw), rest) ∧ unlock p header passphrase = .ok key := by
  unfold headerRaises at h
  cases htext : headerText file with
  | error e =>
    refine Or.inl ⟨e, ?_, headerText_error htext⟩
    simp [Reader.open, read_header, htext]
  | ok parts =>
    obtain ⟨raw, rest⟩ := parts
    have hfile := headerText_eq htext
    have htake : file.take (MAGIC.length + 4 + raw.length) = startOf raw := by
      rw [hfile]
      exact List.take_left' (length_startOf raw)
    simp only [htext] at h
    cases hloads : p.loads raw with
    | invalid =>
      refine Or.inl ⟨.format .headerDamaged, ?_, rfl⟩
      simp [Reader.open, read_header, htext, hloads]
    | tooDeep => simp [hloads] at h
    | value j =>
      cases j with
      | obj header =>
        simp only [hloads] at h
        by_cases hformat : isFormat (Dict.get header "format") = true
        · have hread : read_header p file = .ok (header, p.sha256 (startOf raw), rest) := by
            simp only [read_header, htext, hloads, hformat, if_true, htake]
          cases hunlock : unlock p header passphrase with
          | ok key => exact Or.inr ⟨raw, rest, header, key, hfile, hread, hunlock⟩
          | error e =>
            refine Or.inl ⟨e, by simp [Reader.open, hread, hunlock], ?_⟩
            rcases unlock_error hunlock with he | ⟨hsalt, hinf, -⟩
            · exact he
            · simp [hformat, hsalt, hinf] at h
        · refine Or.inl ⟨.format .unsupportedFormat, ?_, rfl⟩
          simp [Reader.open, read_header, htext, hloads, hformat]
      | _ => simp [hloads] at h

/-- A header that raises something of its own raises it when the file is opened. -/
theorem open_raises (file : Bytes) (passphrase : String) (h : headerRaises p file = true) :
    ∃ e, Reader.open p file passphrase = .error e ∧ isRefusal e = false := by
  unfold headerRaises at h
  cases htext : headerText file with
  | error e => simp [htext] at h
  | ok parts =>
    obtain ⟨raw, rest⟩ := parts
    simp only [htext] at h
    cases hloads : p.loads raw with
    | invalid => simp [hloads] at h
    | tooDeep => exact ⟨.recursion, by simp [Reader.open, read_header, htext, hloads], rfl⟩
    | value j =>
      cases j with
      | obj header =>
        simp only [hloads, Bool.and_eq_true] at h
        have hunlock := unlock_infinite passphrase h.1.2 h.2
        exact ⟨.overflow, by simp [Reader.open, read_header, htext, hloads, h.1.1, hunlock], rfl⟩
      | _ => exact ⟨.attribute, by simp [Reader.open, read_header, htext, hloads], rfl⟩

/-- The header of a written file raises nothing of its own. -/
theorem headerRaises_written {salt key raw rest : Bytes} {header : List (String × Json)}
    (hjson : JsonReads p (headOf p salt key header) raw) (hlen : raw.length < 256 ^ 4) :
    headerRaises p (startOf raw ++ rest) = false := by
  obtain ⟨header', hloads, hsame⟩ := hjson
  obtain ⟨-, -, hn, hr, hp, -⟩ := leaf_headOf p salt key header
  simp only [← hsame] at hn hr hp
  unfold headerRaises
  rw [headerText_start raw rest hlen]
  by_cases hlarge : raw.length > MAX_HEADER
  · simp [hlarge]
  · have hinf : meetsInfinity p header' = false := by
      simp [meetsInfinity, kdfField_of_leaf hn, kdfField_of_leaf hr, kdfField_of_leaf hp, pyInt, isNumber]
    simp [hlarge, hloads, hinf]

/-- A file is read to the end only if it is the one that was written, and every
other file is refused, exactly when the header of the file raises nothing of its
own. -/
theorem changed_file_refused_iff (p : Platform) (hzlib : ZlibUndoes p) (hsha : ∀ bytes, (p.sha256 bytes).length = 32)
    (nonces : Nat → Bytes) (salt : Bytes) (passphrase : String) (header : List (String × Json)) (es : List Entry)
    (w : Writer) (sha : List Char) (hw : writeFile p nonces salt passphrase header es = .ok (w, sha))
    (hjson : ∀ key raw, derive_key p passphrase salt SCRYPT_N SCRYPT_R SCRYPT_P = some key →
      p.dumps (headOf p salt key header) = some raw → JsonReads p (headOf p salt key header) raw)
    (hideal : Ideal p w.key w.sealed)
    (hdigest : ∀ a b, p.sha256 a = w.digest → p.sha256 b = w.digest → a = b)
    (file : Bytes) (opener : String)
    (hkey : ∀ header' digest rest key, read_header p file = .ok (header', digest, rest) →
      unlock p header' opener = .ok key → key = w.key)
    (more : String → List Bytes → Bool) :
    ((∀ result, readFile p more opener file = .ok result → file = w.out) ∧
      (file ≠ w.out → ∃ e, readFile p more opener file = .error e ∧ isRefusal e = true)) ↔
    headerRaises p file = false := by
  obtain ⟨key, raw, done, last, hfile⟩ := writeFile_ok hw
  have hs := hfile.streams
  constructor
  · rintro ⟨-, hrefused⟩
    by_contra hraises
    rw [Bool.not_eq_false] at hraises
    obtain ⟨e, hopen, he⟩ := open_raises file opener hraises
    have hne : file ≠ w.out := by
      rintro rfl
      rw [hs.out, headerRaises_written (hjson key raw hfile.derived hfile.dumped) hfile.fits] at hraises
      simp at hraises
    obtain ⟨e', herr, he'⟩ := hrefused hne
    rw [readFile, hopen] at herr
    cases herr
    rw [he] at he'
    simp at he'
  · intro hraises
    have hread : file = w.out ∨ ∃ e, readFile p more opener file = .error e ∧ isRefusal e = true := by
      rcases open_cases file opener hraises with ⟨e, hopen, he⟩ | ⟨raw', rest, header', key', hstart, hread, hunlock⟩
      · exact Or.inr ⟨e, by rw [readFile, hopen]; rfl, he⟩
      · have hkey' := hkey header' _ rest key' hread hunlock
        rw [hs.key_eq] at hkey'
        subst hkey'
        have hstream : ((done.map Prod.fst) ++ [last]).flatten = deflated p (fileInputs es) := by
          simpa [joined, hfile.sealed] using hs.stream_eq
        obtain ⟨outs, hinf, hflat⟩ := hzlib _ _ hstream
        rw [hs.key_eq, hs.sealed] at hideal
        have hlen : (p.sha256 (startOf raw')).length = (p.sha256 (startOf raw)).length := by rw [hsha, hsha]
        rcases decrypted_changed hideal hlen hs.fits last done hfile.opened [] rfl [] outs hinf rest with
          ⟨hsame, hrest⟩ | ⟨⟨c, hending⟩, hprefix⟩
        · refine Or.inl ?_
          rw [hstart, hs.out, hrest, hdigest _ _ (hsame.trans hs.digest_eq.symm) hs.digest_eq.symm]
          rfl
        · refine Or.inr ?_
          let r : Reader := ⟨[], (decrypted p key' (p.sha256 (startOf raw')) 0 [] rest).items, .error (.format c), []⟩
          have hr : r.stream <+: (fileInputs es).flatten := by
            rw [← hflat]
            simpa [r, Reader.stream] using hprefix
          have hwalk := entries_inputs (p := p) more es hfile.names r hr (decrypted_noEmpty _ _ _ _ _)
          rcases hwalk with ⟨_, _, _, _, hok, _⟩ | ⟨-, herr⟩
          · simp [r] at hok
          · refine ⟨.format c, ?_, rfl⟩
            have hzero : ([] : List Piece).length = 0 := rfl
            rw [hzero] at hending
            simp only [readFile, Reader.open, hread, hunlock, hending, Except.bind]
            rw [herr]
            rfl
    refine ⟨?_, fun hne => hread.resolve_left hne⟩
    intro result hok
    rcases hread with h | ⟨e, herr, -⟩
    · exact h
    · rw [hok] at herr
      simp at herr

/-! ## A changed header -/

def startBytes : Bytes := startOf [0x7B, 0x7D]

/-- The associated data of the one chunk of an empty archive. -/
def onlyAad : Bytes := aadOf (List.replicate 32 1) 0 true

def onlyCt : Bytes := X :: List.replicate 16 0

/-- Libraries for one file without entries: a digest of its own for its header,
a cipher that opens its one chunk, and a JSON reader that knows an empty array. -/
def onlyPlatform : Platform :=
  { plainPlatform with
    scrypt := fun _ _ _ _ _ => some [0x73]
    sha256 := fun bytes => if bytes = startBytes then List.replicate 32 1 else List.replicate 32 0
    decrypt := fun key nonce ct aad =>
      if key = [0x73] ∧ nonce = List.replicate 12 0 ∧ ct = onlyCt ∧ aad = onlyAad then some [X] else none
    loads := fun raw => if raw = [0x5B, 0x5D] then .value (.arr []) else plainPlatform.loads raw }

def onlyNonces : Nat → Bytes := fun _ => List.replicate 12 0

def onlyFile : Except WriteError (Writer × List Char) := writeFile onlyPlatform onlyNonces [0x73] "secret" [] []

def onlyBytes : Bytes := startBytes ++ frameOf true (List.replicate 12 0) onlyCt

theorem onlyFile_ok : ∃ w sha, onlyFile = .ok (w, sha) ∧ w.out = onlyBytes ∧ w.key = [0x73] ∧
    w.digest = List.replicate 32 1 ∧ w.sealed = [⟨List.replicate 12 0, [X], onlyAad⟩] := by
  have hok : (onlyFile.toOption.map fun f => (f.1.out, f.1.key, f.1.digest, f.1.sealed)) =
      some (onlyBytes, [0x73], List.replicate 32 1, [⟨List.replicate 12 0, [X], onlyAad⟩]) := by
        with_unfolding_all decide
  obtain ⟨⟨w, sha⟩, hw, heq⟩ := Option.map_eq_some_iff.mp hok
  simp only [Prod.mk.injEq] at heq
  refine ⟨w, sha, ?_, heq⟩
  cases h : onlyFile with
  | error e => simp [h, Except.toOption] at hw
  | ok f => simpa [h, Except.toOption] using hw

theorem onlyPlatform_zlib : ZlibUndoes onlyPlatform :=
  zlibUndoes_of_copy onlyPlatform (fun _ _ => rfl) (fun _ => rfl) (fun _ _ => rfl) (fun _ => rfl)

theorem onlyPlatform_sha256 (bytes : Bytes) : (onlyPlatform.sha256 bytes).length = 32 := by
  change (if bytes = startBytes then List.replicate 32 1 else List.replicate 32 0 : Bytes).length = 32
  split <;> simp

theorem onlyPlatform_digest (a b : Bytes) (ha : onlyPlatform.sha256 a = List.replicate 32 1)
    (hb : onlyPlatform.sha256 b = List.replicate 32 1) : a = b := by
  have hstart : ∀ bytes, onlyPlatform.sha256 bytes = List.replicate 32 1 → bytes = startBytes := by
    intro bytes h
    change (if bytes = startBytes then List.replicate 32 1 else List.replicate 32 0 : Bytes) = _ at h
    by_contra hne
    rw [if_neg hne] at h
    exact absurd h (by decide)
  rw [hstart a ha, hstart b hb]

theorem onlyPlatform_ideal : Ideal onlyPlatform [0x73] [⟨List.replicate 12 0, [X], onlyAad⟩] where
  opens := by
    intro s hs
    rw [List.mem_singleton.mp hs]
    with_unfolding_all decide
  only := by
    intro nonce ct aad plain h
    change (if [0x73] = [0x73] ∧ nonce = List.replicate 12 0 ∧ ct = onlyCt ∧ aad = onlyAad then some [X] else none) =
      some plain at h
    split at h
    · rename_i heq
      exact ⟨_, List.mem_singleton_self _, heq.2.1.symm, heq.2.2.2.symm, heq.2.2.1.symm⟩
    · simp at h

theorem onlyPlatform_json (key raw : Bytes)
    (hkey : derive_key onlyPlatform "secret" [0x73] SCRYPT_N SCRYPT_R SCRYPT_P = some key)
    (hraw : onlyPlatform.dumps (headOf onlyPlatform [0x73] key []) = some raw) :
    JsonReads onlyPlatform (headOf onlyPlatform [0x73] key []) raw := by
  have hkey' : key = [0x73] := by simpa [derive_key, onlyPlatform] using hkey.symm
  have hraw' : raw = [0x7B, 0x7D] := by simpa [onlyPlatform, plainPlatform] using hraw.symm
  have hlatin : latin [0x73] = "s" := by with_unfolding_all decide
  subst hkey' hraw'
  refine ⟨_, rfl, fun path => ?_⟩
  simp [headOf, Dict.set, onlyPlatform, plainPlatform, _check_value, hlatin, FORMAT, SCRYPT_N, SCRYPT_R, SCRYPT_P]

theorem onlyPlatform_key {header : List (String × Json)} {opener : String} {key : Bytes}
    (h : unlock onlyPlatform header opener = .ok key) : key = [0x73] := by
  have hderive : ∀ salt n r q, derive_key onlyPlatform opener salt n r q = some [0x73] := fun _ _ _ _ => rfl
  unfold unlock at h
  split at h
  · simp at h
  · split at h
    · simp at h
    · simp only [hderive] at h
      split at h
      · simp at h
      · split_ifs at h
        exact (Except.ok.inj h).symm

/-- A byte after the end of the file is refused. -/
theorem appended_byte_refused :
    ∃ e, readFile onlyPlatform (fun _ _ => true) "secret" (onlyBytes ++ [0]) = .error e ∧ isRefusal e = true := by
  obtain ⟨w, sha, hw, hout, hkey, hdigest, hsealed⟩ := onlyFile_ok
  have hiff := changed_file_refused_iff onlyPlatform onlyPlatform_zlib onlyPlatform_sha256 onlyNonces [0x73] "secret" []
    [] w sha hw onlyPlatform_json (by rw [hkey, hsealed]; exact onlyPlatform_ideal)
    (by rw [hdigest]; exact onlyPlatform_digest) (onlyBytes ++ [0]) "secret"
    (fun _ _ _ _ _ hu => (onlyPlatform_key hu).trans hkey.symm) (fun _ _ => true)
  refine (hiff.mpr (by with_unfolding_all decide)).2 ?_
  rw [hout]
  simp

def arrayHeader : Bytes := startOf [0x5B, 0x5D]

/-- A header that is an empty array is neither the written file nor refused. -/
theorem array_header_not_refused :
    ∃ w sha, onlyFile = .ok (w, sha) ∧ Ideal onlyPlatform w.key w.sealed ∧
      (∀ header' digest rest key, read_header onlyPlatform arrayHeader = .ok (header', digest, rest) →
        unlock onlyPlatform header' "secret" = .ok key → key = w.key) ∧
      arrayHeader ≠ w.out ∧ readFile onlyPlatform (fun _ _ => true) "secret" arrayHeader = .error .attribute := by
  obtain ⟨w, sha, hw, hout, hkey, hdigest, hsealed⟩ := onlyFile_ok
  refine ⟨w, sha, hw, by rw [hkey, hsealed]; exact onlyPlatform_ideal,
    fun _ _ _ _ _ hu => (onlyPlatform_key hu).trans hkey.symm, ?_, ?_⟩
  · rw [hout]
    decide
  · have hraises : headerText arrayHeader = .ok ([0x5B, 0x5D], []) := by with_unfolding_all decide
    simp [readFile, Reader.open, read_header, hraises, onlyPlatform, Except.bind]

end TamperEvident
