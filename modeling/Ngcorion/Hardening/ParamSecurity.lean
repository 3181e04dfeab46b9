import Mathlib.Data.List.Forall2
import Ngcorion.Placeholder

/-!
# Checks on hardening parameters

Every value that an operator supplies for a hardening template passes one of
these checks before it is put into a command. A check returns the value in the
form in which it is put in, or the message with which the request is refused.
-/
namespace ParamSecurity

open Text

/-- The decimal digits of Unicode: the value that `int` gives a character, and
the characters for which `str.isdigit` is true. -/
structure Digits where
  value : Char → Option Nat
  isdigit : Char → Bool

/-- The digits restricted to ASCII. -/
def asciiDigits : Digits where
  value c := if c.isDigit then some (c.toNat - '0'.toNat) else none
  isdigit c := c.isDigit

abbrev Checked := Except Str Str

def _fail (field reason : Str) : Checked := .error (lit "Parameter " ++ field ++ lit ": " ++ reason)

def decimal (n : Nat) : Str := Nat.toDigits 10 n

/-- `f"{n:02x}"` -/
def hex (n : Nat) : Str :=
  let digits := Nat.toDigits 16 n
  List.replicate (2 - digits.length) '0' ++ digits

def isControl (c : Char) : Bool := c.toNat < 0x20 || c.toNat = 0x7F

def isNewline (c : Char) : Bool := c = '\n' || c = '\r'

def _check_length (value field : Str) (max_length : Nat) (next : Checked) : Checked :=
  if max_length < value.length then
    _fail field (lit "is too long (" ++ decimal value.length ++ lit " chars, max " ++ decimal max_length ++ lit ")")
  else next

def _reject_control_chars (value field : Str) (allow_newlines : Bool) (next : Checked) : Checked :=
  match value.find? (fun c => isControl c && !(allow_newlines && isNewline c)) with
  | some c => _fail field (lit "contains a control character (0x" ++ hex c.toNat ++ lit "), which is not allowed")
  | none => next

def nul : Char := Char.ofNat 0

def _reject_nul (value field : Str) (next : Checked) : Checked :=
  if nul ∈ value then _fail field (lit "contains a NUL byte") else next

/-- `repr` of one character, as far as the checks print it. -/
def reprChar (c : Char) : Str :=
  if c = '\'' then lit "\"'\"" else if c = '\\' then lit "'\\\\'" else if c = '\n' then lit "'\\n'"
  else if c = '\r' then lit "'\\r'" else if c = nul then lit "'\\x00'" else ['\'', c, '\'']

/-- Refuse a value that has one of the characters, the first of the list that it has. -/
def _deny (chars : List Char) (value field : Str) (next : Checked) : Checked :=
  match chars.find? (fun c => c ∈ value) with
  | some c => _fail field (lit "contains unsupported character/sequence " ++ reprChar c)
  | none => next

/-! ## Device command lines -/

def validate_cli_line (value field : Str) : Checked :=
  _check_length value field 1024 (_reject_control_chars value field false (.ok value))

def validate_delimited_text (value field : Str) (delimiter : Char) : Checked :=
  _check_length value field 8192 (_reject_nul value field
    (if delimiter ∈ value then
      _fail field (lit "must not contain the literal delimiter " ++ reprChar delimiter ++ lit " used to close this block")
    else .ok value))

def validate_heredoc_body (value field delimiter : Str) : Checked :=
  _check_length value field 8192 (_reject_nul value field
    (if delimiter ∈ (splitlines value).map strip then
      _fail field (lit "contains a line equal to '" ++ delimiter ++
        lit "', which would terminate the surrounding heredoc early")
    else .ok value))

/-! ## Shell commands -/

/-- `_SHELL_BREAKOUT_CHARS` -/
def shellBreakoutChars : List Char := ['\'', Char.ofNat 96, '$', '\\', ';', '\n', '\r', nul]

def reject_shell_breakout_chars (value field : Str) (extra : List Char) : Checked :=
  _check_length value field 4096 (_deny (shellBreakoutChars ++ extra) value field (.ok value))

def isAsciiWord (c : Char) : Bool := c.isAlphanum || c = '_'

/-- The characters that `shlex.quote` leaves alone. -/
def isShellSafe (c : Char) : Bool := isAsciiWord c || c ∈ ['@', '%', '+', '=', ':', ',', '.', '/', '-']

def quoteChar (c : Char) : Str := if c = '\'' then ['\'', '"', '\'', '"', '\''] else [c]

/-- `shlex.quote` -/
def quote_shell (value : Str) : Str :=
  if value ≠ [] ∧ value.all isShellSafe then value else '\'' :: (value.flatMap quoteChar ++ ['\''])

def escape_single_quoted_shell_literal (value field : Str) (deny : List Char) : Checked :=
  _check_length value field 8192 (_reject_nul value field (_deny deny value field
    (.ok (value.flatMap (fun c => if c = '\'' then ['\'', '\\', '\'', '\''] else [c])))))

/-! ## Restricted character sets -/

def _restrict_to_charset (value field : Str) (allowed : Char → Bool) (description : Str) (max_length : Nat) : Checked :=
  if value = [] then _fail field (lit "must not be empty")
  else _check_length value field max_length
    (if value.all allowed then .ok value else _fail field (lit "must contain only " ++ description))

def isPathChar (c : Char) : Bool := isAsciiWord c || c ∈ ['.', '/', ':', '-']

def isIdentifierChar (c : Char) : Bool := isAsciiWord c || c = '-'

def isHostChar (c : Char) : Bool := isAsciiWord c || c ∈ ['.', ':', ',', '-']

def validate_path (value field : Str) : Checked :=
  _restrict_to_charset value field isPathChar (lit "letters, digits, '.', '_', '/', ':', '-'") 255

def validate_identifier (value field : Str) : Checked :=
  _restrict_to_charset value field isIdentifierChar (lit "letters, digits, '_', '-'") 64

def validate_host_list (value field : Str) : Checked :=
  _restrict_to_charset value field isHostChar (lit "letters, digits, '.', ':', ',', '-'") 255

/-! ## Numbers and options -/

/-- The digits of a number literal; a single underscore may stand between two digits. -/
def digitsFrom (dg : Digits) : Str → Option (List Nat)
  | [] => some []
  | '_' :: c :: s => (dg.value c).bind (fun d => (digitsFrom dg s).map (d :: ·))
  | c :: s => (dg.value c).bind (fun d => (digitsFrom dg s).map (d :: ·))

/-- `int(s)` without a sign; conversions of more than 4300 digits are refused. -/
def natural (dg : Digits) (s : Str) : Option Nat :=
  if s = [] ∨ s.head? = some '_' then none
  else match digitsFrom dg s with
    | some ds => if ds.length ≤ 4300 then some (ds.foldl (fun n d => 10 * n + d) 0) else none
    | none => none

/-- `int(s)` for a stripped text. -/
def int (dg : Digits) : Str → Option Int
  | '-' :: s => (natural dg s).map (fun n => -(n : Int))
  | '+' :: s => (natural dg s).map (fun n => (n : Int))
  | s => (natural dg s).map (fun n => (n : Int))

/-- `str(n)` -/
def intText (n : Int) : Str := if n < 0 then '-' :: decimal n.natAbs else decimal n.natAbs

def validate_integer (dg : Digits) (value field : Str) (min_value max_value : Option Int) : Checked :=
  match int dg (strip value) with
  | none => _fail field (lit "'" ++ strip value ++ lit "' is not a number")
  | some n =>
    if min_value.any (n < ·) then
      _fail field (intText n ++ lit " is below the minimum " ++ intText (min_value.getD 0))
    else if max_value.any (· < n) then
      _fail field (intText n ++ lit " is above the maximum " ++ intText (max_value.getD 0))
    else .ok (intText n)

def validate_select (value field : Str) (options : List Str) : Checked :=
  if value ∈ options then .ok value
  else _fail field (lit "value '" ++ value ++ lit "' not in [" ++
    join (lit ", ") (options.map (fun o => '\'' :: (o ++ ['\'']))) ++ lit "]")

/-! ## What a value that passes a check is like -/

theorem check_length_ok {value field w : Str} {n : Nat} {next : Checked} (h : _check_length value field n next = .ok w) :
    next = .ok w := by
  unfold _check_length at h
  split at h
  · simp [_fail] at h
  · exact h

theorem reject_nul_ok {value field w : Str} {next : Checked} (h : _reject_nul value field next = .ok w) :
    nul ∉ value ∧ next = .ok w := by
  unfold _reject_nul at h
  split at h
  · simp [_fail] at h
  · next hn => exact ⟨hn, h⟩

theorem deny_ok {chars : List Char} {value field w : Str} {next : Checked} (h : _deny chars value field next = .ok w) :
    (∀ c ∈ chars, c ∉ value) ∧ next = .ok w := by
  unfold _deny at h
  split at h
  · simp [_fail] at h
  · next hn => exact ⟨by simpa using hn, h⟩

theorem validate_cli_line_ok {value field w : Str} (h : validate_cli_line value field = .ok w) :
    w = value ∧ ∀ c ∈ value, isControl c = false := by
  have hnext := check_length_ok h
  unfold _reject_control_chars at hnext
  split at hnext
  · simp [_fail] at hnext
  · next hn =>
    cases hnext
    exact ⟨rfl, by simpa using hn⟩

theorem validate_delimited_text_ok {value field w : Str} {delimiter : Char}
    (h : validate_delimited_text value field delimiter = .ok w) : w = value ∧ delimiter ∉ value := by
  have hnext := (reject_nul_ok (check_length_ok h)).2
  split at hnext
  · simp [_fail] at hnext
  · next hn =>
    cases hnext
    exact ⟨rfl, hn⟩

theorem validate_heredoc_body_ok {value field delimiter w : Str} (h : validate_heredoc_body value field delimiter = .ok w) :
    w = value ∧ delimiter ∉ (splitlines value).map strip := by
  have hnext := (reject_nul_ok (check_length_ok h)).2
  split at hnext
  · simp [_fail] at hnext
  · next hn =>
    cases hnext
    exact ⟨rfl, hn⟩

theorem mem_intText {n : Int} {c : Char} (hc : c ∈ intText n) : c = '-' ∨ c.isDigit = true := by
  have hdecimal : ∀ n, c ∈ decimal n → c.isDigit = true :=
    fun n hc => Nat.isDigit_of_mem_toDigits (by decide) (by decide) hc
  unfold intText at hc
  split at hc
  · rcases List.mem_cons.mp hc with hc | hc
    · exact Or.inl hc
    · exact Or.inr (hdecimal _ hc)
  · exact Or.inr (hdecimal _ hc)

theorem validate_integer_ok {dg : Digits} {value field w : Str} {lo hi : Option Int}
    (h : validate_integer dg value field lo hi = .ok w) : ∀ c ∈ w, c = '-' ∨ c.isDigit = true := by
  unfold validate_integer at h
  split at h
  · simp [_fail] at h
  · next n _ =>
    split at h
    · simp [_fail] at h
    · split at h
      · simp [_fail] at h
      · cases h
        exact fun c hc => mem_intText hc

/-! ## Several commands -/

theorem mapM_ok {f : Str → Checked} {commands out : List Str} (h : commands.mapM f = .ok out) :
    List.Forall₂ (fun cmd s => f cmd = .ok s) commands out := by
  induction commands generalizing out with
  | nil =>
    cases h
    exact .nil
  | cons cmd commands ih =>
    rw [List.mapM_cons] at h
    cases hf : f cmd with
    | error m =>
      rw [hf] at h
      simp [bind, Except.bind] at h
    | ok s =>
      rw [hf] at h
      cases hm : commands.mapM f with
      | error m =>
        rw [hm] at h
        simp [bind, Except.bind] at h
      | ok rest =>
        rw [hm] at h
        cases h
        exact .cons hf (ih hm)

end ParamSecurity
