import Mathlib.Data.Char
import Mathlib.Data.List.Lex
import Mathlib.Data.List.Sort
import Ngcorion.Dict
import Ngcorion.Text

/-!
# JSON texts

`dumps` writes a value as a text of ASCII characters, and `loads` reads one. What was written is read back, for every layout,
where no object has a key twice and the nesting stays within the limit of the reader.
-/
namespace Json

open Text

inductive Value (F : Type) where
  | null
  | bool (b : Bool)
  | int (n : Int)
  | float (x : F)
  | str (s : Str)
  | arr (items : List (Value F))
  | obj (fields : List (Str × Value F))

/-! ## Characters -/

def isBlank (c : Char) : Bool := c = ' ' || c = '\t' || c = '\n' || c = '\r'

def skip (s : Str) : Str := s.dropWhile isBlank

def hexDigit (c : Char) : Option Nat :=
  if '0' ≤ c ∧ c ≤ '9' then some (c.toNat - 48)
  else if 'a' ≤ c ∧ c ≤ 'f' then some (c.toNat - 87)
  else if 'A' ≤ c ∧ c ≤ 'F' then some (c.toNat - 55)
  else none

/-- Four hexadecimal digits -/
def hexText (n : Nat) : Str := [n / 4096 % 16, n / 256 % 16, n / 16 % 16, n % 16].map Nat.digitChar

def readHex : Str → Option (Nat × Str)
  | a :: b :: c :: d :: s => do
    let a ← hexDigit a
    let b ← hexDigit b
    let c ← hexDigit c
    let d ← hexDigit d
    return (4096 * a + 256 * b + 16 * c + d, s)
  | _ => none

def shortEscapes : List (Char × Char) :=
  [('"', '"'), ('\\', '\\'), ('/', '/'), ('b', Char.ofNat 8), ('f', Char.ofNat 12), ('n', '\n'), ('r', '\r'), ('t', '\t')]

/-- A character within quotes; those past the first plane are two surrogates. -/
def escaped (c : Char) : Str :=
  if c = '"' ∨ c = '\\' then ['\\', c]
  else if 32 ≤ c.toNat ∧ c.toNat ≤ 126 then [c]
  else if c = '\n' then ['\\', 'n']
  else if c = '\r' then ['\\', 'r']
  else if c = '\t' then ['\\', 't']
  else if c = Char.ofNat 12 then ['\\', 'f']
  else if c = Char.ofNat 8 then ['\\', 'b']
  else if c.toNat < 0x10000 then '\\' :: 'u' :: hexText c.toNat
  else '\\' :: 'u' :: hexText (0xD800 + (c.toNat - 0x10000) / 0x400) ++
    '\\' :: 'u' :: hexText (0xDC00 + (c.toNat - 0x10000) % 0x400)

/-- What follows `\u`: a text has no surrogate that stands alone. -/
def unicode (s : Str) : Option (Char × Str) := do
  let (high, rest) ← readHex s
  if 0xD800 ≤ high ∧ high < 0xDC00 then
    match rest with
    | '\\' :: 'u' :: rest => do
      let (low, rest) ← readHex rest
      if 0xDC00 ≤ low ∧ low < 0xE000 then some (Char.ofNat (0x10000 + (high - 0xD800) * 0x400 + (low - 0xDC00)), rest) else none
    | _ => none
  else if 0xDC00 ≤ high ∧ high < 0xE000 then none
  else some (Char.ofNat high, rest)

/-- The next character of a quoted text -/
def next : Str → Option (Char × Str)
  | [] => none
  | c :: s =>
    if c = '\\' then
      match s with
      | [] => none
      | e :: rest => if e = 'u' then unicode rest else (Dict.get shortEscapes e).map fun x => (x, rest)
    else if c.toNat < 32 then none
    else some (c, s)

/-- The text up to the closing quote -/
def chars : Nat → Str → Option (Str × Str)
  | 0, _ => none
  | n + 1, s =>
    if s.head? = some '"' then some ([], s.tail)
    else do
      let (c, rest) ← next s
      let (t, rest) ← chars n rest
      return (c :: t, rest)

def quoted (s : Str) : Str := '"' :: s.flatMap escaped ++ ['"']

theorem hexDigit_digitChar : ∀ n < 16, hexDigit (Nat.digitChar n) = some n := by decide

theorem readHex_hexText {n : Nat} (h : n < 65536) (rest : Str) : readHex (hexText n ++ rest) = some (n, rest) := by
  have hdigit : ∀ k, hexDigit (Nat.digitChar (k % 16)) = some (k % 16) := fun k =>
    hexDigit_digitChar _ (Nat.mod_lt _ (by omega))
  simp only [hexText, List.map_cons, List.map_nil, List.cons_append, List.nil_append, readHex, hdigit, Option.bind_eq_bind,
    Option.bind_some]
  congr 2
  omega

theorem toNat_not_surrogate (c : Char) : c.toNat < 0xD800 ∨ 0xDFFF < c.toNat ∧ c.toNat < 0x110000 := c.valid

theorem next_plain {c : Char} (hc : c ≠ '\\') (h : 32 ≤ c.toNat) (rest : Str) : next (c :: rest) = some (c, rest) := by
  simp only [next, if_neg hc, if_neg (show ¬ c.toNat < 32 by omega)]

theorem next_short {e x : Char} (hu : e ≠ 'u') (h : Dict.get shortEscapes e = some x) (rest : Str) :
    next ('\\' :: e :: rest) = some (x, rest) := by
  simp [next, hu, h]

theorem next_unicode (s : Str) : next ('\\' :: 'u' :: s) = unicode s := by simp [next]

/-- A character of the first plane is one group of digits. -/
theorem unicode_one {c : Char} (h : c.toNat < 0x10000) (rest : Str) : unicode (hexText c.toNat ++ rest) = some (c, rest) := by
  have hvalid := toNat_not_surrogate c
  simp only [unicode, readHex_hexText h, Option.bind_eq_bind, Option.bind_some]
  rw [if_neg (by omega), if_neg (by omega), Char.ofNat_toNat]

theorem unicode_pair {high low : Nat} (hhigh : 0xD800 ≤ high ∧ high < 0xDC00) (hlow : 0xDC00 ≤ low ∧ low < 0xE000) (rest : Str) :
    unicode (hexText high ++ '\\' :: 'u' :: (hexText low ++ rest)) =
      some (Char.ofNat (0x10000 + (high - 0xD800) * 0x400 + (low - 0xDC00)), rest) := by
  rw [unicode, readHex_hexText (by omega), Option.bind_eq_bind, Option.bind_some]
  simp only [readHex_hexText (show low < 65536 by omega), Option.bind_some, if_pos hhigh, if_pos hlow]

/-- A character past the first plane is two groups. -/
theorem unicode_two {c : Char} (h : 0x10000 ≤ c.toNat) (rest : Str) :
    unicode (hexText (0xD800 + (c.toNat - 0x10000) / 0x400) ++
      '\\' :: 'u' :: (hexText (0xDC00 + (c.toNat - 0x10000) % 0x400) ++ rest)) = some (c, rest) := by
  have hvalid := toNat_not_surrogate c
  generalize hhigh : 0xD800 + (c.toNat - 0x10000) / 0x400 = high
  generalize hlow : 0xDC00 + (c.toNat - 0x10000) % 0x400 = low
  have hsum : 0x10000 + (high - 0xD800) * 0x400 + (low - 0xDC00) = c.toNat := by omega
  rw [unicode_pair (by omega) (by omega), hsum, Char.ofNat_toNat]

/-- An escaped character is read back. -/
theorem next_escaped (c : Char) (rest : Str) : next (escaped c ++ rest) = some (c, rest) := by
  unfold escaped
  split_ifs with hquote hplain hn hr ht hf hb hone
  · rcases hquote with rfl | rfl
    · exact next_short (by decide) rfl rest
    · exact next_short (by decide) rfl rest
  · exact next_plain (fun h => hquote (.inr h)) hplain.1 rest
  · exact hn ▸ next_short (by decide) rfl rest
  · exact hr ▸ next_short (by decide) rfl rest
  · exact ht ▸ next_short (by decide) rfl rest
  · exact hf ▸ next_short (by decide) rfl rest
  · exact hb ▸ next_short (by decide) rfl rest
  · rw [List.cons_append, List.cons_append, next_unicode]
    exact unicode_one hone rest
  · rw [List.append_assoc, List.cons_append, List.cons_append, List.cons_append, List.cons_append, next_unicode]
    exact unicode_two (by omega) rest

theorem escaped_head (c : Char) : ∃ d, (escaped c).head? = some d ∧ d ≠ '"' := by
  unfold escaped
  split_ifs with hquote hplain
  · exact ⟨'\\', rfl, by decide⟩
  · exact ⟨c, rfl, fun h => hquote (.inl h)⟩
  all_goals exact ⟨'\\', rfl, by decide⟩

/-- A quoted text is read back. -/
theorem chars_quoted (s rest : Str) {n : Nat} (h : s.length < n) : chars n (s.flatMap escaped ++ '"' :: rest) = some (s, rest) := by
  induction s generalizing n with
  | nil =>
    obtain ⟨n, rfl⟩ := Nat.exists_eq_add_of_lt h
    rfl
  | cons c s ih =>
    obtain ⟨n, rfl⟩ : ∃ m, n = m + 1 := ⟨n - 1, by omega⟩
    obtain ⟨d, hhead, hd⟩ := escaped_head c
    rw [List.flatMap_cons, List.append_assoc, chars, List.head?_append, hhead, if_neg (by simpa using hd), next_escaped,
      Option.bind_eq_bind, Option.bind_some]
    simp only [ih (n := n) (by simpa using h), Option.bind_eq_bind, Option.bind_some]
    rfl

/-! ## Numbers -/

def digitsOf (s : Str) : Str := s.takeWhile Char.isDigit

/-- `0|[1-9][0-9]*` -/
def magnitude (s : Str) : Option (Str × Str) :=
  if s.head? = some '0' then some (['0'], s.tail)
  else if digitsOf s = [] then none
  else some (digitsOf s, s.drop (digitsOf s).length)

/-- `-?(?:0|[1-9][0-9]*)` -/
def integerPart (s : Str) : Option (Str × Str) :=
  if s.head? = some '-' then (magnitude s.tail).map fun x => ('-' :: x.1, x.2) else magnitude s

/-- `(\.[0-9]+)?` -/
def fraction (s : Str) : Str × Str :=
  if s.head? = some '.' ∧ digitsOf s.tail ≠ [] then ('.' :: digitsOf s.tail, s.tail.drop (digitsOf s.tail).length) else ([], s)

/-- The sign of an exponent -/
def signOf (s : Str) : Str := if s.head? = some '+' ∨ s.head? = some '-' then s.take 1 else []

/-- `([eE][-+]?[0-9]+)?` -/
def exponent (s : Str) : Str × Str :=
  let sign := signOf s.tail
  let digits := digitsOf (s.tail.drop sign.length)
  if (s.head? = some 'e' ∨ s.head? = some 'E') ∧ digits ≠ [] then
    (s.take 1 ++ sign ++ digits, s.tail.drop (sign ++ digits).length)
  else ([], s)

def intValue (s : Str) : Int :=
  if s.head? = some '-' then -(Nat.ofDigitChars 10 s.tail 0 : Int) else Nat.ofDigitChars 10 s 0

def intText (n : Int) : Str := if n < 0 then '-' :: Nat.toDigits 10 n.natAbs else Nat.toDigits 10 n.natAbs

/-- A number without its fraction and its exponent -/
def Whole (s : Str) : Prop := ∃ n, s = Nat.toDigits 10 n ∨ s = '-' :: Nat.toDigits 10 n

def Digits (s : Str) : Prop := s ≠ [] ∧ ∀ c ∈ s, c.isDigit = true

def Fraction (s : Str) : Prop := s = [] ∨ ∃ ds, s = '.' :: ds ∧ Digits ds

def Exponent (s : Str) : Prop :=
  s = [] ∨ ∃ e sign ds, s = e :: sign ++ ds ∧ (e = 'e' ∨ e = 'E') ∧ (sign = [] ∨ sign = ['+'] ∨ sign = ['-']) ∧ Digits ds

/-- What `repr` writes of a number with a fraction or an exponent -/
structure FloatText (s : Str) : Prop where
  parts : ∃ whole frac exp, s = whole ++ frac ++ exp ∧ Whole whole ∧ Fraction frac ∧ Exponent exp ∧ (frac ≠ [] ∨ exp ≠ [])

def constants : List Str := [lit "NaN", lit "Infinity", lit "-Infinity"]

/-- Floating-point numbers, with what they are as texts -/
structure Floats (F : Type) where
  dump : F → Str
  load : Str → F
  dump_text : ∀ x, FloatText (dump x) ∨ dump x ∈ constants
  load_dump : ∀ x, load (dump x) = x

theorem floatText_zero (_ : Unit) : FloatText ['0', '.', '0'] ∨ ['0', '.', '0'] ∈ constants :=
  .inl ⟨['0'], ['.', '0'], [], rfl, ⟨0, .inl rfl⟩, .inr ⟨['0'], rfl, by simp, forall_mem_of_all (by decide)⟩, .inl rfl, by simp⟩

/-- What may follow a number -/
def Ends (s : Str) : Prop := ∀ c ∈ s.head?, c.isDigit = false ∧ c ≠ '.' ∧ c ≠ 'e' ∧ c ≠ 'E'

theorem digitsOf_append {ds s : Str} (hds : ∀ c ∈ ds, c.isDigit = true) (hs : ∀ c ∈ s.head?, c.isDigit = false) :
    digitsOf (ds ++ s) = ds := by
  rw [digitsOf, List.takeWhile_append_of_pos hds]
  cases s with
  | nil => simp
  | cons c s => simp [hs c (by simp)]

theorem toDigits_head {n : Nat} (h : (Nat.toDigits 10 n).head? = some '0') : n = 0 := by
  induction n using Nat.strongRecOn with
  | ind n ih =>
    rcases Nat.lt_or_ge n 10 with hn | hn
    · rw [Nat.toDigits_of_lt_base hn] at h
      have hall : ∀ k < 10, [Nat.digitChar k].head? = some '0' → k = 0 := by decide
      exact hall n hn h
    · rw [Nat.toDigits_of_base_le (by decide) hn, List.head?_append_of_ne_nil _ Nat.toDigits_ne_nil] at h
      have hdiv := ih (n / 10) (by omega) h
      omega

theorem isDigit_toDigits {n : Nat} : ∀ c ∈ Nat.toDigits 10 n, c.isDigit = true := fun _ hc =>
  Nat.isDigit_of_mem_toDigits (by decide) (by decide) hc

theorem magnitude_append (n : Nat) {s : Str} (hs : ∀ c ∈ s.head?, c.isDigit = false) :
    magnitude (Nat.toDigits 10 n ++ s) = some (Nat.toDigits 10 n, s) := by
  have hne : Nat.toDigits 10 n ≠ [] := Nat.toDigits_ne_nil
  have hdigits := digitsOf_append (isDigit_toDigits (n := n)) hs
  rw [magnitude, List.head?_append_of_ne_nil _ hne]
  split
  · next hzero =>
    rw [toDigits_head hzero, Nat.toDigits_zero]
    rfl
  · rw [if_neg (by rw [hdigits]; exact hne), hdigits, List.drop_left]

theorem toDigits_head_digit (n : Nat) : ∃ c, (Nat.toDigits 10 n).head? = some c ∧ c.isDigit = true := by
  cases hd : Nat.toDigits 10 n with
  | nil => exact absurd hd Nat.toDigits_ne_nil
  | cons c ds => exact ⟨c, rfl, isDigit_toDigits (n := n) c (by rw [hd]; exact List.mem_cons_self)⟩

theorem Whole.head {s : Str} (h : Whole s) : ∃ c, s.head? = some c ∧ (c.isDigit = true ∨ c = '-') := by
  obtain ⟨n, rfl | rfl⟩ := h
  · obtain ⟨c, hc, hd⟩ := toDigits_head_digit n
    exact ⟨c, hc, .inl hd⟩
  · exact ⟨'-', rfl, .inr rfl⟩

theorem integerPart_append {w s : Str} (hw : Whole w) (hs : ∀ c ∈ s.head?, c.isDigit = false) :
    integerPart (w ++ s) = some (w, s) := by
  obtain ⟨n, rfl | rfl⟩ := hw
  · obtain ⟨c, hc, hd⟩ := toDigits_head_digit n
    rw [integerPart, List.head?_append_of_ne_nil _ Nat.toDigits_ne_nil, hc, if_neg, magnitude_append n hs]
    rintro h
    cases h
    cases hd
  · simp [integerPart, magnitude_append n hs]

theorem fraction_append {f s : Str} (hf : Fraction f) (hs : ∀ c ∈ s.head?, c.isDigit = false ∧ c ≠ '.') :
    fraction (f ++ s) = (f, s) := by
  rcases hf with rfl | ⟨ds, rfl, hne, hds⟩
  · rw [List.nil_append, fraction, if_neg]
    rintro ⟨hhead, -⟩
    exact (hs '.' (by simpa using hhead)).2 rfl
  · have hdigits := digitsOf_append hds fun c hc => (hs c hc).1
    simp [fraction, hdigits, hne]

theorem exponent_append {e s : Str} (he : Exponent e) (hs : Ends s) : exponent (e ++ s) = (e, s) := by
  rcases he with rfl | ⟨c, sign, ds, rfl, hc, hsign, hne, hds⟩
  · rw [List.nil_append]
    unfold exponent
    rw [if_neg]
    rintro ⟨hhead | hhead, -⟩
    · exact (hs 'e' (by simpa using hhead)).2.2.1 rfl
    · exact (hs 'E' (by simpa using hhead)).2.2.2 rfl
  · have hdigits := digitsOf_append hds fun c hc => (hs c hc).1
    have hsignOf : signOf (sign ++ (ds ++ s)) = sign := by
      rcases hsign with rfl | rfl | rfl
      · obtain ⟨d, ds', rfl⟩ := List.exists_cons_of_ne_nil hne
        have hd := hds d List.mem_cons_self
        rw [signOf, if_neg]
        rintro (h | h) <;> cases h <;> cases hd
      · rfl
      · rfl
    have hhead : (c :: sign ++ ds ++ s).head? = some 'e' ∨ (c :: sign ++ ds ++ s).head? = some 'E' := by
      rcases hc with rfl | rfl <;> simp
    have htail : (c :: sign ++ ds ++ s).tail = sign ++ (ds ++ s) := by simp
    unfold exponent
    simp only [htail, hsignOf, List.drop_left, hdigits]
    rw [if_pos ⟨hhead, hne⟩]
    simp

/-! ## Values -/

inductive Failure where
  | invalid | tooDeep
  deriving DecidableEq

section

variable {F : Type} (fl : Floats F)

def number (s : Str) : Option (Value F × Str) := do
  let (whole, rest) ← integerPart s
  let (frac, rest) := fraction rest
  let (exp, rest) := exponent rest
  return (if frac = [] ∧ exp = [] then .int (intValue whole) else .float (fl.load (whole ++ frac ++ exp)), rest)

/-- A word at the beginning of a text -/
def word (w : Str) (v : Value F) (s : Str) : Option (Value F × Str) :=
  if startsWith w s then some (v, s.drop w.length) else none

def constant (s : Str) : Option (Value F × Str) := constants.findSome? fun w => word w (.float (fl.load w)) s

/-- A value that is neither an array nor an object -/
def scalar (s : Str) : Option (Value F × Str) :=
  if s.head? = some '"' then (chars s.length s.tail).map fun x => (.str x.1, x.2)
  else if s.head? = some 'n' then word (lit "null") .null s
  else if s.head? = some 't' then word (lit "true") (.bool true) s
  else if s.head? = some 'f' then word (lit "false") (.bool false) s
  else (number fl s).or (constant fl s)

section

variable {α : Type} (one : Str → Except Failure (α × Str)) (close : Char)

/-- What stands between commas, up to the closing bracket -/
def elements : Nat → Str → Except Failure (List α × Str)
  | 0, _ => .error .invalid
  | n + 1, s => do
    let (x, rest) ← one s
    if (skip rest).head? = some close then return ([x], (skip rest).tail)
    else if (skip rest).head? = some ',' then
      let (xs, rest) ← elements n (skip (skip rest).tail)
      return (x :: xs, rest)
    else throw .invalid

/-- What stands between brackets; the opening one is read. -/
def bracketed (s : Str) : Except Failure (List α × Str) :=
  if (skip s).head? = some close then .ok ([], (skip s).tail) else elements one close s.length (skip s)

end

def field (value : Str → Except Failure (Value F × Str)) (s : Str) : Except Failure ((Str × Value F) × Str) :=
  if s.head? = some '"' then
    match chars s.length s.tail with
    | none => .error .invalid
    | some (key, rest) =>
      if (skip rest).head? = some ':' then (value (skip (skip rest).tail)).map fun x => ((key, x.1), x.2)
      else .error .invalid
  else .error .invalid

/-- A value at the beginning of a text; arrays and objects are nested at most to a limit. -/
def value : Nat → Str → Except Failure (Value F × Str)
  | depth, s =>
    if s.head? = some '[' then
      match depth with
      | 0 => .error .tooDeep
      | depth + 1 => (bracketed (value depth) ']' s.tail).map fun x => (.arr x.1, x.2)
    else if s.head? = some '\x7b' then
      match depth with
      | 0 => .error .tooDeep
      | depth + 1 => (bracketed (field (value depth)) '\x7d' s.tail).map fun x =>
          (.obj (x.1.foldl (fun d e => Dict.set d e.1 e.2) []), x.2)
    else
      match scalar fl s with
      | some x => .ok x
      | none => .error .invalid

def loads (depth : Nat) (s : Str) : Except Failure (Value F) := do
  let (v, rest) ← value fl depth (skip s)
  if skip rest = [] then return v else throw .invalid

/-! ## Layouts -/

/-- What stands behind a comma, behind a colon, and at a new line -/
structure Layout where
  item : Str
  key : Str
  newline : Nat → Str
  item_blank : ∀ c ∈ item, isBlank c = true
  key_blank : ∀ c ∈ key, isBlank c = true
  newline_blank : ∀ level, ∀ c ∈ newline level, isBlank c = true

/-- `separators=(",", ":")` -/
def compact : Layout := ⟨[], [], fun _ => [], by simp, by simp, by simp⟩

/-- The default layout of `dumps` -/
def spaced : Layout :=
  ⟨[' '], [' '], fun _ => [], forall_mem_of_all (by decide), forall_mem_of_all (by decide), by simp⟩

/-- `indent=n` -/
def indented (n : Nat) : Layout where
  item := []
  key := [' ']
  newline level := '\n' :: List.replicate (n * level) ' '
  item_blank := by simp
  key_blank := forall_mem_of_all (by decide)
  newline_blank level c hc := by
    rcases List.mem_cons.mp hc with rfl | hc
    · rfl
    · rw [List.eq_of_mem_replicate hc]
      rfl

theorem Layout.gap_blank (l : Layout) (level : Nat) : ∀ c ∈ l.item ++ l.newline level, isBlank c = true := by
  intro c hc
  rcases List.mem_append.mp hc with hc | hc
  · exact l.item_blank c hc
  · exact l.newline_blank level c hc

variable (l : Layout)

mutual

def text (level : Nat) : Value F → Str
  | .null => lit "null"
  | .bool true => lit "true"
  | .bool false => lit "false"
  | .int n => intText n
  | .float x => fl.dump x
  | .str s => quoted s
  | .arr [] => ['[', ']']
  | .arr (v :: vs) => '[' :: l.newline (level + 1) ++ text (level + 1) v ++ itemsText (level + 1) vs ++ l.newline level ++ [']']
  | .obj [] => ['\x7b', '\x7d']
  | .obj ((k, v) :: fs) =>
    '\x7b' :: l.newline (level + 1) ++ quoted k ++ ':' :: l.key ++ text (level + 1) v ++ fieldsText (level + 1) fs ++
      l.newline level ++ ['\x7d']

def itemsText (level : Nat) : List (Value F) → Str
  | [] => []
  | v :: vs => ',' :: l.item ++ l.newline level ++ text level v ++ itemsText level vs

def fieldsText (level : Nat) : List (Str × Value F) → Str
  | [] => []
  | (k, v) :: fs => ',' :: l.item ++ l.newline level ++ quoted k ++ ':' :: l.key ++ text level v ++ fieldsText level fs

end

def dumps (v : Value F) : Str := text fl l 0 v

end

/-! ## Reading what was written -/

theorem skip_blanks {b s : Str} (hb : ∀ c ∈ b, isBlank c = true) (hs : ∀ c ∈ s.head?, isBlank c = false) : skip (b ++ s) = s := by
  rw [skip, List.dropWhile_append_of_pos hb]
  cases s with
  | nil => rfl
  | cons c s => simp [hs c (by simp)]

theorem skip_of_head {s : Str} (hs : ∀ c ∈ s.head?, isBlank c = false) : skip s = s :=
  skip_blanks (b := []) (by simp) hs

/-- A character that a number does not go on with -/
def Stop (c : Char) : Prop := c.isDigit = false ∧ c ≠ '.' ∧ c ≠ 'e' ∧ c ≠ 'E'

theorem stop_blank {c : Char} (h : isBlank c = true) : Stop c := by
  simp only [isBlank, Bool.or_eq_true, decide_eq_true_eq] at h
  rcases h with ((rfl | rfl) | rfl) | rfl <;> exact ⟨by decide, by decide, by decide, by decide⟩

theorem ends_cons {c : Char} (h : Stop c) (s : Str) : Ends (c :: s) := by
  intro x hx
  cases hx
  exact h

theorem ends_blanks {b s : Str} (hb : ∀ c ∈ b, isBlank c = true) (hs : Ends s) : Ends (b ++ s) := by
  cases b with
  | nil => exact hs
  | cons c b => exact ends_cons (stop_blank (hb c List.mem_cons_self)) _

section

variable {α : Type} {one : Str → Except Failure (α × Str)} {close : Char} {print : α → Str} {gap shut : Str}

/-- Elements with commas between them are read back, when each of them is. -/
theorem elements_printed (hgap : ∀ c ∈ gap, isBlank c = true) (hshut : ∀ c ∈ shut, isBlank c = true)
    (hclose : isBlank close = false) (hstop : Stop close) (hcomma : close ≠ ',') (rest : Str) {x : α} {xs : List α}
    (hone : ∀ y ∈ x :: xs, ∀ s, Ends s → one (print y ++ s) = .ok (y, s))
    (hhead : ∀ y ∈ x :: xs, ∃ c, (print y).head? = some c ∧ isBlank c = false) {n : Nat} (hn : xs.length < n) :
    elements one close n (print x ++ (xs.flatMap (fun y => ',' :: gap ++ print y) ++ (shut ++ close :: rest))) =
      .ok (x :: xs, rest) := by
  have hshutEnds : Ends (shut ++ close :: rest) := ends_blanks hshut (ends_cons hstop rest)
  have hshutSkip : skip (shut ++ close :: rest) = close :: rest := skip_blanks hshut (by simpa using hclose)
  induction xs generalizing x n with
  | nil =>
    obtain ⟨n, rfl⟩ : ∃ m, n = m + 1 := ⟨n - 1, by omega⟩
    rw [List.flatMap_nil, List.nil_append, elements, hone x List.mem_cons_self _ hshutEnds]
    simp [bind, Except.bind, hshutSkip, pure, Except.pure]
  | cons y ys ih =>
    obtain ⟨n, rfl⟩ : ∃ m, n = m + 1 := ⟨n - 1, by omega⟩
    have hcommaEnds : ∀ s, Ends (',' :: s) := ends_cons ⟨by decide, by decide, by decide, by decide⟩
    obtain ⟨c, hc, hblank⟩ := hhead y (by simp)
    have hskip : ∀ s, skip (gap ++ (print y ++ s)) = print y ++ s := fun s =>
      skip_blanks hgap (by rw [List.head?_append, hc]; simpa using hblank)
    have hrest := ih (x := y) (fun z hz => hone z (List.mem_cons_of_mem _ hz)) (fun z hz => hhead z (List.mem_cons_of_mem _ hz))
      (n := n) (by simpa using hn)
    have hsplit : (y :: ys).flatMap (fun y => ',' :: gap ++ print y) ++ (shut ++ close :: rest) =
        ',' :: (gap ++ (print y ++ (ys.flatMap (fun y => ',' :: gap ++ print y) ++ (shut ++ close :: rest)))) := by
      simp
    rw [hsplit, elements, hone x List.mem_cons_self _ (hcommaEnds _)]
    have hskipComma : ∀ s : Str, skip (',' :: s) = ',' :: s := fun s => skip_of_head (by simp [isBlank])
    simp only [bind, Except.bind, hskipComma, List.head?_cons, List.tail_cons]
    rw [if_neg (by simpa using fun h : ',' = close => hcomma h.symm), if_pos trivial, hskip, hrest]
    rfl

theorem length_le_flatMap {f : α → Str} (xs : List α) (h : ∀ x, f x ≠ []) : xs.length ≤ (xs.flatMap f).length := by
  induction xs with
  | nil => simp
  | cons x xs ih =>
    have hpos := List.length_pos_of_ne_nil (h x)
    rw [List.flatMap_cons, List.length_append, List.length_cons]
    omega

theorem bracketed_nil (hclose : isBlank close = false) (rest : Str) : bracketed one close (close :: rest) = .ok ([], rest) := by
  rw [bracketed, skip_of_head (by simpa using hclose)]
  simp

theorem bracketed_printed {opened : Str} (hopened : ∀ c ∈ opened, isBlank c = true) (hgap : ∀ c ∈ gap, isBlank c = true)
    (hshut : ∀ c ∈ shut, isBlank c = true) (hclose : isBlank close = false) (hstop : Stop close) (hcomma : close ≠ ',')
    (rest : Str) {x : α} {xs : List α} (hone : ∀ y ∈ x :: xs, ∀ s, Ends s → one (print y ++ s) = .ok (y, s))
    (hhead : ∀ y ∈ x :: xs, ∃ c, (print y).head? = some c ∧ isBlank c = false ∧ c ≠ close) :
    bracketed one close
        (opened ++ (print x ++ (xs.flatMap (fun y => ',' :: gap ++ print y) ++ (shut ++ close :: rest)))) =
      .ok (x :: xs, rest) := by
  obtain ⟨c, hc, hblank, hne⟩ := hhead x List.mem_cons_self
  have hskip : ∀ s, skip (opened ++ (print x ++ s)) = print x ++ s := fun s =>
    skip_blanks hopened (by rw [List.head?_append, hc]; simpa using hblank)
  have hlength : xs.length ≤ (xs.flatMap fun y => ',' :: gap ++ print y).length := length_le_flatMap xs fun y => by simp
  rw [bracketed, hskip, List.head?_append, hc, if_neg (by simpa using hne)]
  refine elements_printed hgap hshut hclose hstop hcomma rest hone (fun y hy => ?_) ?_
  · obtain ⟨d, hd, hdblank, -⟩ := hhead y hy
    exact ⟨d, hd, hdblank⟩
  · simp only [List.length_append, List.length_cons]
    omega

end

section

variable {F : Type} {fl : Floats F}

theorem number_whole {w rest : Str} (hw : Whole w) (hr : Ends rest) : number fl (w ++ rest) = some (.int (intValue w), rest) := by
  have hfraction := fraction_append (.inl rfl) (s := rest) fun c hc => ⟨(hr c hc).1, (hr c hc).2.1⟩
  have hexponent := exponent_append (.inl rfl) hr
  rw [List.nil_append] at hfraction hexponent
  simp only [number, integerPart_append hw fun c hc => (hr c hc).1, Option.bind_eq_bind, Option.bind_some, hfraction, hexponent,
    and_self, if_true]
  rfl

theorem number_float {x : Str} (hx : FloatText x) {rest : Str} (hr : Ends rest) :
    number fl (x ++ rest) = some (.float (fl.load x), rest) := by
  obtain ⟨whole, frac, exp, rfl, hwhole, hfrac, hexp, hne⟩ := hx
  have hexpHead : ∀ c ∈ (exp ++ rest).head?, c.isDigit = false ∧ c ≠ '.' := by
    intro c hc
    rcases hexp with rfl | ⟨e, sign, ds, rfl, rfl | rfl, -⟩
    · exact ⟨(hr c hc).1, (hr c hc).2.1⟩
    all_goals
      cases hc
      exact ⟨by decide, by decide⟩
  have hfracHead : ∀ c ∈ (frac ++ (exp ++ rest)).head?, c.isDigit = false := by
    intro c hc
    rcases hfrac with rfl | ⟨ds, rfl, -⟩
    · exact (hexpHead c hc).1
    · cases hc
      rfl
  rw [List.append_assoc, List.append_assoc]
  simp only [number, integerPart_append hwhole hfracHead, Option.bind_eq_bind, Option.bind_some,
    fraction_append hfrac hexpHead, exponent_append hexp hr, if_neg (show ¬ (frac = [] ∧ exp = []) by tauto)]
  rfl

theorem whole_intText (n : Int) : Whole (intText n) := by
  unfold intText
  split
  · exact ⟨n.natAbs, .inr rfl⟩
  · exact ⟨n.natAbs, .inl rfl⟩

theorem intValue_intText (n : Int) : intValue (intText n) = n := by
  unfold intText
  split
  · rw [intValue, List.head?_cons, if_pos rfl, List.tail_cons, Nat.ofDigitChars_ten_toDigits]
    omega
  · obtain ⟨c, hc, hd⟩ := toDigits_head_digit n.natAbs
    rw [intValue, hc, if_neg, Nat.ofDigitChars_ten_toDigits]
    · omega
    · rintro h
      cases h
      cases hd

theorem word_append (w : Str) (v : Value F) (rest : Str) : word w v (w ++ rest) = some (v, rest) := by
  simp [word]

/-- A number is no word and no text. -/
theorem scalar_number {s : Str} {c : Char} (hs : s.head? = some c) (hc : c.isDigit = true ∨ c = '-') :
    scalar fl s = (number fl s).or (constant fl s) := by
  have hne : ∀ d : Char, d.isDigit = false → d ≠ '-' → some c ≠ some d := by
    rintro d hd hdash h
    cases h
    rcases hc with hc | hc
    · rw [hd] at hc
      cases hc
    · exact hdash hc
  rw [scalar, hs, if_neg (hne '"' (by decide) (by decide)), if_neg (hne 'n' (by decide) (by decide)),
    if_neg (hne 't' (by decide) (by decide)), if_neg (hne 'f' (by decide) (by decide))]

theorem scalar_constant (fl : Floats F) {w : Str} (hw : w ∈ constants) (rest : Str) : scalar fl (w ++ rest) = some (.float (fl.load w), rest) := by
  have hnan : lit "NaN" = ['N', 'a', 'N'] := by unfold lit; rfl
  have hinf : lit "Infinity" = ['I', 'n', 'f', 'i', 'n', 'i', 't', 'y'] := by unfold lit; rfl
  have hneg : lit "-Infinity" = ['-', 'I', 'n', 'f', 'i', 'n', 'i', 't', 'y'] := by unfold lit; rfl
  simp only [constants, hnan, hinf, hneg, List.mem_cons, List.not_mem_nil, or_false] at hw
  rcases hw with rfl | rfl | rfl <;>
    simp [scalar, number, integerPart, magnitude, digitsOf, constant, constants, hnan, hinf, hneg, word, startsWith]

/-- How deep arrays and objects are nested, and that no object has a key twice -/
inductive Tidy : Nat → Value F → Prop
  | null (d : Nat) : Tidy d .null
  | bool (d : Nat) (b : Bool) : Tidy d (.bool b)
  | int (d : Nat) (n : Int) : Tidy d (.int n)
  | float (d : Nat) (x : F) : Tidy d (.float x)
  | str (d : Nat) (s : Str) : Tidy d (.str s)
  | arr (d : Nat) (vs : List (Value F)) (h : ∀ v ∈ vs, Tidy d v) : Tidy (d + 1) (.arr vs)
  | obj (d : Nat) (fs : List (Str × Value F)) (hkeys : (Dict.keys fs).Nodup) (h : ∀ f ∈ fs, Tidy d f.2) : Tidy (d + 1) (.obj fs)

variable {l : Layout}

theorem itemsText_eq (level : Nat) (vs : List (Value F)) :
    itemsText fl l level vs = vs.flatMap fun v => ',' :: (l.item ++ l.newline level) ++ text fl l level v := by
  induction vs with
  | nil => rfl
  | cons v vs ih => simp [itemsText, ih]

def fieldText (fl : Floats F) (l : Layout) (level : Nat) (f : Str × Value F) : Str :=
  quoted f.1 ++ ':' :: l.key ++ text fl l level f.2

theorem fieldsText_eq (level : Nat) (fs : List (Str × Value F)) :
    fieldsText fl l level fs = fs.flatMap fun f => ',' :: (l.item ++ l.newline level) ++ fieldText fl l level f := by
  induction fs with
  | nil => rfl
  | cons f fs ih =>
    obtain ⟨k, v⟩ := f
    simp [fieldsText, fieldText, ih]

theorem floatText_head {s : Str} (h : FloatText s) : ∃ c, s.head? = some c ∧ (c.isDigit = true ∨ c = '-') := by
  obtain ⟨whole, frac, exp, rfl, hwhole, -⟩ := h
  obtain ⟨c, hc, hd⟩ := hwhole.head
  exact ⟨c, by simp [hc], hd⟩

theorem constants_head {w : Str} (hw : w ∈ constants) : w.head? = some 'N' ∨ w.head? = some 'I' ∨ w.head? = some '-' := by
  have hnan : lit "NaN" = ['N', 'a', 'N'] := by unfold lit; rfl
  have hinf : lit "Infinity" = ['I', 'n', 'f', 'i', 'n', 'i', 't', 'y'] := by unfold lit; rfl
  have hneg : lit "-Infinity" = ['-', 'I', 'n', 'f', 'i', 'n', 'i', 't', 'y'] := by unfold lit; rfl
  simp only [constants, hnan, hinf, hneg, List.mem_cons, List.not_mem_nil, or_false] at hw
  rcases hw with rfl | rfl | rfl <;> simp

/-- A character that a value begins with -/
def Begins (c : Char) : Prop := isBlank c = false ∧ c ≠ ']' ∧ c ≠ '\x7d'

theorem begins_digit {c : Char} (h : c.isDigit = true ∨ c = '-') : Begins c := by
  rcases h with h | rfl
  · refine ⟨?_, ?_, ?_⟩
    · cases hblank : isBlank c with
      | false => rfl
      | true => exact absurd h (by simp [(stop_blank hblank).1])
    · rintro rfl
      cases h
    · rintro rfl
      cases h
  · exact ⟨by decide, by decide, by decide⟩

theorem text_head (fl : Floats F) (l : Layout) (level : Nat) (v : Value F) :
    ∃ c, (text fl l level v).head? = some c ∧ Begins c := by
  have hnull : lit "null" = ['n', 'u', 'l', 'l'] := by unfold lit; rfl
  have htrue : lit "true" = ['t', 'r', 'u', 'e'] := by unfold lit; rfl
  have hfalse : lit "false" = ['f', 'a', 'l', 's', 'e'] := by unfold lit; rfl
  cases v with
  | null => exact ⟨'n', by rw [text, hnull]; rfl, by decide, by decide, by decide⟩
  | bool b =>
    cases b with
    | true => exact ⟨'t', by rw [text, htrue]; rfl, by decide, by decide, by decide⟩
    | false => exact ⟨'f', by rw [text, hfalse]; rfl, by decide, by decide, by decide⟩
  | int n =>
    obtain ⟨c, hc, hd⟩ := (whole_intText n).head
    exact ⟨c, by rw [text, hc], begins_digit hd⟩
  | float x =>
    rcases fl.dump_text x with h | h
    · obtain ⟨c, hc, hd⟩ := floatText_head h
      exact ⟨c, by rw [text, hc], begins_digit hd⟩
    · rcases constants_head h with h | h | h
      all_goals exact ⟨_, by rw [text, h], by decide, by decide, by decide⟩
  | str s => exact ⟨'"', by rw [text]; rfl, by decide, by decide, by decide⟩
  | arr vs =>
    cases vs with
    | nil => exact ⟨'[', by rw [text]; rfl, by decide, by decide, by decide⟩
    | cons v vs => exact ⟨'[', by rw [text]; rfl, by decide, by decide, by decide⟩
  | obj fs =>
    cases fs with
    | nil => exact ⟨'\x7b', by rw [text]; rfl, by decide, by decide, by decide⟩
    | cons f fs => exact ⟨'\x7b', by rw [text]; rfl, by decide, by decide, by decide⟩

theorem value_scalar {d : Nat} {s : Str} {x : Value F × Str} {c : Char} (hc : s.head? = some c) (harr : c ≠ '[')
    (hobj : c ≠ '\x7b') (hs : scalar fl s = some x) : value fl d s = .ok x := by
  unfold value
  rw [hc, if_neg (by simpa using harr), if_neg (by simpa using hobj), hs]

theorem value_number {d : Nat} {s : Str} {x : Value F × Str} {c : Char} (hc : s.head? = some c)
    (hd : c.isDigit = true ∨ c = '-') (hs : number fl s = some x) : value fl d s = .ok x := by
  refine value_scalar hc ?_ ?_ (by rw [scalar_number hc hd, hs]; rfl)
  all_goals
    rintro rfl
    rcases hd with hd | hd <;> cases hd

theorem length_le_flatMap_escaped (s : Str) : s.length ≤ (s.flatMap escaped).length :=
  length_le_flatMap s fun c h => by
    obtain ⟨d, hd, -⟩ := escaped_head c
    rw [h] at hd
    cases hd

theorem chars_of_quoted (s rest : Str) : chars (quoted s ++ rest).length (quoted s ++ rest).tail = some (s, rest) := by
  have hlength := length_le_flatMap_escaped s
  have htail : (quoted s ++ rest).tail = s.flatMap escaped ++ '"' :: rest := by simp [quoted]
  rw [htail]
  refine chars_quoted s rest ?_
  simp only [quoted, List.length_append, List.length_cons]
  omega

theorem quoted_head (s rest : Str) : (quoted s ++ rest).head? = some '"' := by simp [quoted]

/-- Keys that are all different are set one behind the other. -/
theorem foldl_set_nodup (d fs : List (Str × Value F)) (h : (Dict.keys (d ++ fs)).Nodup) :
    fs.foldl (fun d e => Dict.set d e.1 e.2) d = d ++ fs := by
  induction fs generalizing d with
  | nil => simp
  | cons f fs ih =>
    have hnot : f.1 ∉ Dict.keys d := by
      rw [Dict.keys_append, List.nodup_append] at h
      exact fun hmem => h.2.2 f.1 hmem f.1 List.mem_cons_self rfl
    rw [List.foldl_cons, Dict.set_of_not_mem _ _ _ hnot, ih _ (by rwa [List.append_assoc]), List.append_assoc]
    rfl

theorem field_text {d level : Nat} {f : Str × Value F} {rest : Str}
    (hvalue : value fl d (text fl l level f.2 ++ rest) = .ok (f.2, rest)) :
    field (value fl d) (fieldText fl l level f ++ rest) = .ok (f, rest) := by
  obtain ⟨c, hc, hblank, -⟩ := text_head fl l level f.2
  have hskip : skip (l.key ++ (text fl l level f.2 ++ rest)) = text fl l level f.2 ++ rest :=
    skip_blanks l.key_blank (by rw [List.head?_append, hc]; simpa using hblank)
  have hcolon : ∀ s : Str, skip (':' :: s) = ':' :: s := fun s => skip_of_head (by simp [isBlank])
  rw [fieldText, List.append_assoc, List.append_assoc, List.cons_append, field, if_pos (quoted_head _ _), chars_of_quoted]
  simp only [hcolon, List.head?_cons, List.tail_cons, if_true, hskip, hvalue]
  rfl

/-- A value that was written is read back. -/
theorem value_text {d : Nat} {v : Value F} (ht : Tidy d v) {level : Nat} {rest : Str} (hr : Ends rest) :
    value fl d (text fl l level v ++ rest) = .ok (v, rest) := by
  have hnull : lit "null" = ['n', 'u', 'l', 'l'] := by unfold lit; rfl
  have htrue : lit "true" = ['t', 'r', 'u', 'e'] := by unfold lit; rfl
  have hfalse : lit "false" = ['f', 'a', 'l', 's', 'e'] := by unfold lit; rfl
  induction ht generalizing level rest with
  | null d =>
    have hword := word_append (lit "null") (Value.null : Value F) rest
    rw [text]
    refine value_scalar (c := 'n') (by simp [hnull]) (by decide) (by decide) ?_
    rw [← hword, scalar, hnull]
    rfl
  | bool d b =>
    cases b with
    | true =>
      have hword := word_append (lit "true") (Value.bool true : Value F) rest
      rw [text]
      refine value_scalar (c := 't') (by simp [htrue]) (by decide) (by decide) ?_
      rw [← hword, scalar, htrue]
      rfl
    | false =>
      have hword := word_append (lit "false") (Value.bool false : Value F) rest
      rw [text]
      refine value_scalar (c := 'f') (by simp [hfalse]) (by decide) (by decide) ?_
      rw [← hword, scalar, hfalse]
      rfl
  | int d n =>
    obtain ⟨c, hc, hd⟩ := (whole_intText n).head
    rw [text]
    refine value_number (c := c) (by simp [hc]) hd ?_
    rw [number_whole (whole_intText n) hr, intValue_intText]
  | float d x =>
    rw [text]
    rcases fl.dump_text x with h | h
    · obtain ⟨c, hc, hd⟩ := floatText_head h
      refine value_number (c := c) (by simp [hc]) hd ?_
      rw [number_float h hr, fl.load_dump]
    · have hscalar := scalar_constant fl h rest
      rw [fl.load_dump] at hscalar
      rcases constants_head h with hc | hc | hc
      all_goals exact value_scalar (by rw [List.head?_append, hc]; rfl) (by decide) (by decide) hscalar
  | str d s =>
    rw [text]
    refine value_scalar (quoted_head s rest) (by decide) (by decide) ?_
    rw [scalar, if_pos (quoted_head s rest), chars_of_quoted]
    rfl
  | arr d vs hvs ih =>
    cases vs with
    | nil =>
      rw [text]
      simp [value, bracketed_nil (show isBlank ']' = false by decide), Except.map]
    | cons v vs =>
      have hrest : bracketed (value fl d) ']' (l.newline (level + 1) ++ (text fl l (level + 1) v ++
          (vs.flatMap (fun y => ',' :: (l.item ++ l.newline (level + 1)) ++ text fl l (level + 1) y) ++
            (l.newline level ++ ']' :: rest)))) = .ok (v :: vs, rest) :=
        bracketed_printed (l.newline_blank _) (l.gap_blank _) (l.newline_blank _) (by decide)
          ⟨by decide, by decide, by decide, by decide⟩ (by decide) rest (fun y hy s hs => ih y hy hs) (fun y _ => by
            obtain ⟨c, hc, hblank, hne, -⟩ := text_head fl l (level + 1) y
            exact ⟨c, hc, hblank, hne⟩)
      rw [text, itemsText_eq]
      unfold value
      simp only [List.cons_append, List.append_assoc, List.head?_cons, List.tail_cons, List.nil_append, if_true] at hrest ⊢
      rw [hrest]
      rfl
  | obj d fs hkeys hfs ih =>
    cases fs with
    | nil =>
      rw [text]
      simp [value, bracketed_nil (show isBlank '\x7d' = false by decide), Except.map]
    | cons f fs =>
      have hrest : bracketed (field (value fl d)) '\x7d' (l.newline (level + 1) ++ (fieldText fl l (level + 1) f ++
          (fs.flatMap (fun y => ',' :: (l.item ++ l.newline (level + 1)) ++ fieldText fl l (level + 1) y) ++
            (l.newline level ++ '\x7d' :: rest)))) = .ok (f :: fs, rest) :=
        bracketed_printed (l.newline_blank _) (l.gap_blank _) (l.newline_blank _) (by decide)
          ⟨by decide, by decide, by decide, by decide⟩ (by decide) rest (fun y hy s hs => field_text (ih y hy hs))
          (fun y _ => ⟨'"', by simp [fieldText, quoted], by decide, by decide⟩)
      obtain ⟨k, v⟩ := f
      rw [text, fieldsText_eq]
      unfold value
      simp only [fieldText, List.cons_append, List.append_assoc, List.head?_cons, List.tail_cons, List.nil_append, if_true]
        at hrest ⊢
      rw [hrest]
      simp only [Except.map, foldl_set_nodup [] ((k, v) :: fs) (by simpa using hkeys), List.nil_append]
      rfl

/-- What was written is read back, also with blanks behind it. -/
theorem loads_dumps {d : Nat} {v : Value F} (ht : Tidy d v) {blanks : Str} (hb : ∀ c ∈ blanks, isBlank c = true) :
    loads fl d (dumps fl l v ++ blanks) = .ok v := by
  obtain ⟨c, hc, hblank, -⟩ := text_head fl l 0 v
  have hends : Ends blanks := by
    simpa using ends_blanks hb (s := []) (by simp [Ends])
  have hskip : skip (dumps fl l v ++ blanks) = dumps fl l v ++ blanks :=
    skip_of_head (by rw [dumps, List.head?_append, hc]; simpa using hblank)
  have hrest : skip blanks = [] := by
    simpa using skip_blanks hb (s := []) (by simp)
  rw [loads, hskip, dumps, value_text ht hends]
  simp [bind, Except.bind, hrest, pure, Except.pure]

/-! ## Characters of a written text -/

/-- The characters that a text in quotes has -/
def Printable (c : Char) : Prop := 32 ≤ c.toNat ∧ c.toNat ≤ 126

theorem printable_hexText (n : Nat) : ∀ c ∈ hexText n, Printable c := by
  have hdigit : ∀ k < 16, Printable (Nat.digitChar k) := by
    unfold Printable
    decide
  intro c hc
  simp only [hexText, List.map_cons, List.map_nil, List.mem_cons, List.not_mem_nil, or_false] at hc
  rcases hc with rfl | rfl | rfl | rfl
  all_goals exact hdigit _ (Nat.mod_lt _ (by decide))

theorem printable_cons {c : Char} {s : Str} (hc : Printable c) (hs : ∀ d ∈ s, Printable d) : ∀ d ∈ c :: s, Printable d := by
  intro d hd
  rcases List.mem_cons.mp hd with rfl | hd
  · exact hc
  · exact hs d hd

theorem printable_append {s t : Str} (hs : ∀ c ∈ s, Printable c) (ht : ∀ c ∈ t, Printable c) : ∀ c ∈ s ++ t, Printable c := by
  intro c hc
  rcases List.mem_append.mp hc with hc | hc
  · exact hs c hc
  · exact ht c hc

theorem printable_escaped (c : Char) : ∀ d ∈ escaped c, Printable d := by
  have hslash : Printable '\\' := ⟨by decide, by decide⟩
  have hu : Printable 'u' := ⟨by decide, by decide⟩
  have hshort : ∀ e : Char, Printable e → ∀ d ∈ ['\\', e], Printable d := fun e he =>
    printable_cons hslash (printable_cons he (by simp))
  have hlong : ∀ n, ∀ d ∈ '\\' :: 'u' :: hexText n, Printable d := fun n =>
    printable_cons hslash (printable_cons hu (printable_hexText n))
  unfold escaped
  split_ifs with hquote hplain
  · refine hshort c ?_
    rcases hquote with rfl | rfl <;> exact ⟨by decide, by decide⟩
  · intro d hd
    obtain rfl := List.mem_singleton.mp hd
    exact hplain
  · exact hshort 'n' ⟨by decide, by decide⟩
  · exact hshort 'r' ⟨by decide, by decide⟩
  · exact hshort 't' ⟨by decide, by decide⟩
  · exact hshort 'f' ⟨by decide, by decide⟩
  · exact hshort 'b' ⟨by decide, by decide⟩
  · exact hlong _
  · exact printable_append (hlong _) (hlong _)

theorem printable_quoted (s : Str) : ∀ c ∈ quoted s, Printable c := by
  have hquote : Printable '"' := ⟨by decide, by decide⟩
  refine printable_cons hquote (printable_append ?_ (printable_cons hquote (by simp)))
  intro c hc
  obtain ⟨d, -, hd⟩ := List.mem_flatMap.mp hc
  exact printable_escaped d c hd

theorem printable_digits {s : Str} (h : ∀ c ∈ s, c.isDigit = true) : ∀ c ∈ s, Printable c := by
  intro c hc
  have hd := h c hc
  simp only [Char.isDigit, Bool.and_eq_true, decide_eq_true_eq] at hd
  have hlow : '0'.toNat ≤ c.toNat := hd.1
  have hhigh : c.toNat ≤ '9'.toNat := hd.2
  have h0 : '0'.toNat = 48 := rfl
  have h9 : '9'.toNat = 57 := rfl
  exact ⟨by omega, by omega⟩

theorem Whole.printable {s : Str} (h : Whole s) : ∀ c ∈ s, Printable c := by
  obtain ⟨n, rfl | rfl⟩ := h
  · exact printable_digits isDigit_toDigits
  · exact printable_cons ⟨by decide, by decide⟩ (printable_digits isDigit_toDigits)

theorem FloatText.printable {s : Str} (h : FloatText s) : ∀ c ∈ s, Printable c := by
  obtain ⟨whole, frac, exp, rfl, hwhole, hfrac, hexp, -⟩ := h
  refine printable_append (printable_append hwhole.printable ?_) ?_
  · rcases hfrac with rfl | ⟨ds, rfl, -, hds⟩
    · simp
    · exact printable_cons ⟨by decide, by decide⟩ (printable_digits hds)
  · rcases hexp with rfl | ⟨e, sign, ds, rfl, he, hsign, -, hds⟩
    · simp
    · refine printable_append (printable_cons ?_ ?_) (printable_digits hds)
      · rcases he with rfl | rfl <;> exact ⟨by decide, by decide⟩
      · rcases hsign with rfl | rfl | rfl
        · simp
        all_goals exact printable_cons ⟨by decide, by decide⟩ (by simp)

theorem printable_word {w : Str} (hw : w ∈ constants ∨ w = lit "null" ∨ w = lit "true" ∨ w = lit "false") :
    ∀ c ∈ w, Printable c := by
  unfold constants lit at hw
  simp only [List.mem_cons, List.not_mem_nil, or_false] at hw
  rcases hw with (rfl | rfl | rfl) | rfl | rfl | rfl <;> unfold Printable <;> exact forall_mem_of_all (by decide)

/-- A text has printable characters, and those of its layout. -/
theorem text_all {P : Char → Prop} (hprint : ∀ c, Printable c → P c) (hitem : ∀ c ∈ l.item, P c) (hkey : ∀ c ∈ l.key, P c)
    (hnewline : ∀ level, ∀ c ∈ l.newline level, P c) {d : Nat} {v : Value F} (ht : Tidy d v) {level : Nat} :
    ∀ c ∈ text fl l level v, P c := by
  have happ : ∀ {s t : Str}, (∀ c ∈ s, P c) → (∀ c ∈ t, P c) → ∀ c ∈ s ++ t, P c := fun hs ht c hc =>
    (List.mem_append.mp hc).elim (hs c) (ht c)
  have hcons : ∀ {x : Char} {s : Str}, Printable x → (∀ c ∈ s, P c) → ∀ c ∈ x :: s, P c := fun hx hs c hc =>
    (List.mem_cons.mp hc).elim (fun h => h ▸ hprint _ hx) (hs c)
  have hprinted : ∀ {s : Str}, (∀ c ∈ s, Printable c) → ∀ c ∈ s, P c := fun hs c hc => hprint c (hs c hc)
  have hgap : ∀ level, ∀ c ∈ l.item ++ l.newline level, P c := fun level => happ hitem (hnewline level)
  have hnil : ∀ c ∈ ([] : Str), P c := by simp
  have hcomma : Printable ',' := ⟨by decide, by decide⟩
  induction ht generalizing level with
  | null d =>
    rw [text]
    exact hprinted (printable_word (by simp))
  | bool d b =>
    cases b with
    | true =>
      rw [text]
      exact hprinted (printable_word (by simp))
    | false =>
      rw [text]
      exact hprinted (printable_word (by simp))
  | int d n =>
    rw [text]
    exact hprinted (whole_intText n).printable
  | float d x =>
    rw [text]
    rcases fl.dump_text x with h | h
    · exact hprinted h.printable
    · exact hprinted (printable_word (.inl h))
  | str d s =>
    rw [text]
    exact hprinted (printable_quoted s)
  | arr d vs hvs ih =>
    have hopen : Printable '[' := ⟨by decide, by decide⟩
    have hclose : Printable ']' := ⟨by decide, by decide⟩
    cases vs with
    | nil =>
      rw [text]
      exact hcons hopen (hcons hclose hnil)
    | cons v vs =>
      rw [text, itemsText_eq]
      have hitems : ∀ c ∈ vs.flatMap (fun y => ',' :: (l.item ++ l.newline (level + 1)) ++ text fl l (level + 1) y), P c := by
        intro c hc
        obtain ⟨y, hy, hc⟩ := List.mem_flatMap.mp hc
        exact happ (hcons hcomma (hgap _)) (ih y (List.mem_cons_of_mem _ hy)) c hc
      exact happ (happ (happ (happ (hcons hopen (hnewline _)) (ih v List.mem_cons_self)) hitems) (hnewline _))
        (hcons hclose hnil)
  | obj d fs hkeys hfs ih =>
    have hopen : Printable '\x7b' := ⟨by decide, by decide⟩
    have hclose : Printable '\x7d' := ⟨by decide, by decide⟩
    have hfield : ∀ level, ∀ f ∈ fs, ∀ c ∈ fieldText fl l level f, P c := fun level f hf =>
      happ (happ (hprinted (printable_quoted f.1)) (hcons ⟨by decide, by decide⟩ hkey)) (ih f hf)
    cases fs with
    | nil =>
      rw [text]
      exact hcons hopen (hcons hclose hnil)
    | cons f fs =>
      have hitems : ∀ c ∈ fs.flatMap (fun y => ',' :: (l.item ++ l.newline (level + 1)) ++ fieldText fl l (level + 1) y),
          P c := by
        intro c hc
        obtain ⟨y, hy, hc⟩ := List.mem_flatMap.mp hc
        exact happ (hcons hcomma (hgap _)) (hfield _ y (List.mem_cons_of_mem _ hy)) c hc
      have hall := happ (happ (happ (happ (hcons hopen (hnewline (level + 1))) (hfield (level + 1) f List.mem_cons_self))
        hitems) (hnewline level)) (hcons hclose hnil)
      obtain ⟨k, v⟩ := f
      rw [text, fieldsText_eq]
      simpa [fieldText] using hall

theorem printable_compact {d : Nat} {v : Value F} (ht : Tidy d v) : ∀ c ∈ dumps fl compact v, Printable c :=
  text_all (fun _ h => h) (by simp [compact]) (by simp [compact]) (by simp [compact]) ht

/-- Every text that is written has printable characters and line ends. -/
theorem dumps_all {d : Nat} {v : Value F} (ht : Tidy d v) : ∀ c ∈ dumps fl l v, Printable c ∨ isBlank c = true :=
  text_all (fun _ h => .inl h) (fun c hc => .inr (l.item_blank c hc)) (fun c hc => .inr (l.key_blank c hc))
    (fun level c hc => .inr (l.newline_blank level c hc)) ht

/-! ## Sorted keys -/

mutual

def sortKeys : Value F → Value F
  | .arr vs => .arr (sortItems vs)
  | .obj fs => .obj ((sortFields fs).insertionSort fun a b => a.1 ≤ b.1)
  | v => v

def sortItems : List (Value F) → List (Value F)
  | [] => []
  | v :: vs => sortKeys v :: sortItems vs

def sortFields : List (Str × Value F) → List (Str × Value F)
  | [] => []
  | (k, v) :: fs => (k, sortKeys v) :: sortFields fs

end

theorem sortItems_eq (vs : List (Value F)) : sortItems vs = vs.map sortKeys := by
  induction vs with
  | nil => rfl
  | cons v vs ih => rw [sortItems, ih, List.map_cons]

theorem sortFields_eq (fs : List (Str × Value F)) : sortFields fs = fs.map fun f => (f.1, sortKeys f.2) := by
  induction fs with
  | nil => rfl
  | cons f fs ih =>
    obtain ⟨k, v⟩ := f
    rw [sortFields, ih, List.map_cons]

theorem keys_sorted_perm (fs : List (Str × Value F)) :
    (Dict.keys ((sortFields fs).insertionSort fun a b => a.1 ≤ b.1)).Perm (Dict.keys fs) := by
  have hperm := (List.perm_insertionSort (fun a b : Str × Value F => a.1 ≤ b.1) (sortFields fs)).map Prod.fst
  rw [sortFields_eq, List.map_map] at hperm
  rw [Dict.keys, Dict.keys, sortFields_eq]
  exact hperm

theorem tidy_sortKeys {d : Nat} {v : Value F} (ht : Tidy d v) : Tidy d (sortKeys v) := by
  induction ht with
  | null d => exact .null d
  | bool d b => exact .bool d b
  | int d n => exact .int d n
  | float d x => exact .float d x
  | str d s => exact .str d s
  | arr d vs hvs ih =>
    rw [sortKeys, sortItems_eq]
    refine .arr d _ fun v hv => ?_
    obtain ⟨w, hw, rfl⟩ := List.mem_map.mp hv
    exact ih w hw
  | obj d fs hkeys hfs ih =>
    rw [sortKeys]
    refine .obj d _ ((keys_sorted_perm fs).nodup_iff.mpr hkeys) fun f hf => ?_
    rw [List.mem_insertionSort, sortFields_eq] at hf
    obtain ⟨g, hg, rfl⟩ := List.mem_map.mp hf
    exact ih g hg

/-- A key of the sorted object has the sorted value. -/
theorem get_sorted {fs : List (Str × Value F)} (hkeys : (Dict.keys fs).Nodup) (k : Str) :
    Dict.get ((sortFields fs).insertionSort fun a b => a.1 ≤ b.1) k = (Dict.get fs k).map sortKeys := by
  have hnodup := (keys_sorted_perm fs).nodup_iff.mpr hkeys
  cases hget : Dict.get fs k with
  | none =>
    rw [Option.map_none, Dict.get_eq_none, (keys_sorted_perm fs).mem_iff]
    exact (Dict.get_eq_none fs k).mp hget
  | some v =>
    refine Dict.get_of_mem _ hnodup k (sortKeys v) ?_
    rw [List.mem_insertionSort, sortFields_eq]
    exact List.mem_map.mpr ⟨(k, v), Dict.mem_of_get _ _ _ hget, rfl⟩

end

end Json
