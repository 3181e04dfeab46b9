import Mathlib.Data.List.Basic
import Mathlib.Data.UInt
import Mathlib.Tactic.Common
import Mathlib.Tactic.Ring

/-!
# Byte strings

Byte strings are lists of bytes. `pack` and `unpack` are the big endian
integers of a fixed width, `encode` and `decode` the UTF-8 texts, and `pieces`
cuts a byte string into pieces of a fixed size.
-/
namespace Octets

abbrev Bytes := List UInt8

/-- The big endian integer of a width; the number must fit. -/
def pack : Nat → Nat → Bytes
  | 0, _ => []
  | width + 1, n => pack width (n / 256) ++ [UInt8.ofNat (n % 256)]

def unpack (bytes : Bytes) : Nat := bytes.foldl (fun n b => n * 256 + b.toNat) 0

@[simp] theorem length_pack (width n : Nat) : (pack width n).length = width := by
  induction width generalizing n with
  | zero => rfl
  | succ width ih => simp [pack, ih]

theorem unpack_append_singleton (bytes : Bytes) (b : UInt8) : unpack (bytes ++ [b]) = unpack bytes * 256 + b.toNat := by
  simp [unpack]

theorem unpack_pack (width n : Nat) (h : n < 256 ^ width) : unpack (pack width n) = n := by
  induction width generalizing n with
  | zero =>
    have hn : n = 0 := by simpa using h
    simp [pack, unpack, hn]
  | succ width ih =>
    have hdiv : n / 256 < 256 ^ width := by
      rw [Nat.div_lt_iff_lt_mul (by omega)]
      rwa [pow_succ] at h
    have hmod : (UInt8.ofNat (n % 256)).toNat = n % 256 := by
      rw [UInt8.toNat_ofNat']
      omega
    rw [pack, unpack_append_singleton, ih _ hdiv, hmod]
    omega

theorem pack_injective {width m n : Nat} (hm : m < 256 ^ width) (hn : n < 256 ^ width)
    (h : pack width m = pack width n) : m = n := by
  rw [← unpack_pack width m hm, h, unpack_pack width n hn]

/-- A byte string of the width packs its own number. -/
theorem pack_unpack (bytes : Bytes) : pack bytes.length (unpack bytes) = bytes := by
  induction bytes using List.reverseRecOn with
  | nil => rfl
  | append_singleton bytes b ih =>
    have hb : b.toNat < 256 := b.toNat_lt
    have hdiv : (unpack bytes * 256 + b.toNat) / 256 = unpack bytes := by omega
    have hmod : (unpack bytes * 256 + b.toNat) % 256 = b.toNat := by omega
    rw [List.length_append, List.length_singleton, unpack_append_singleton, pack, hdiv, hmod, ih]
    simp

/-- A byte is the value of the character that has its value. -/
theorem byte_of_char (b : UInt8) : UInt8.ofNat (Char.ofNat b.toNat).toNat = b := by
  have hb : b.toNat < 256 := b.toNat_lt
  have hvalid : (b.toNat).isValidChar := Or.inl (by omega)
  have hchar : (Char.ofNat b.toNat).toNat = b.toNat := by
    rw [Char.ofNat, dif_pos hvalid]
    rfl
  rw [hchar, UInt8.ofNat_toNat]

/-- The UTF-8 encoding of a text. -/
def encode (s : String) : Bytes := s.toByteArray.data.toList

def decode (bytes : Bytes) : Option String := String.fromUTF8? bytes.toByteArray

@[simp] theorem decode_encode (s : String) : decode (encode s) = some s := by
  have hbytes : (encode s).toByteArray = s.toByteArray := by
    apply ByteArray.ext
    simp [encode]
  rw [decode, String.fromUTF8?, hbytes, dif_pos s.isValidUTF8]
  rfl

theorem encode_append (s t : String) : encode (s ++ t) = encode s ++ encode t := by
  simp [encode, String.toByteArray_append]

/-- Pieces of a size, the last one shorter when the length is no multiple of it. -/
def pieces (size : Nat) (bytes : Bytes) : List Bytes :=
  if size = 0 ∨ bytes = [] then [] else bytes.take size :: pieces size (bytes.drop size)
  termination_by bytes.length
  decreasing_by
    rename_i h
    have hsize : size ≠ 0 := fun hz => h (Or.inl hz)
    have hlen : 0 < bytes.length := List.length_pos_of_ne_nil (fun hb => h (Or.inr hb))
    rw [List.length_drop]
    omega

theorem flatten_pieces (size : Nat) (hs : 0 < size) (bytes : Bytes) : (pieces size bytes).flatten = bytes := by
  fun_induction pieces size bytes with
  | case1 bytes h =>
    rcases h with h | h
    · omega
    · simp [h]
  | case2 bytes h ih => simp [ih]

theorem length_of_mem_pieces {size : Nat} {bytes part : Bytes} (h : part ∈ pieces size bytes) :
    part.length ≤ size := by
  fun_induction pieces size bytes with
  | case1 bytes _ => simp at h
  | case2 bytes _ ih =>
    rcases List.mem_cons.mp h with h | h
    · simp [h, List.length_take]
    · exact ih h

end Octets
