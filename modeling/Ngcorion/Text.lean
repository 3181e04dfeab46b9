import Mathlib.Data.List.Basic
import Mathlib.Data.List.Infix
import Mathlib.Tactic.Common
import Mathlib.Data.Char
import Mathlib.Data.List.Lex

/-!
# Text operations

Strings are lists of code points. The operations below are the Python string
operations that line-oriented programs use: splitting into lines and words,
stripping, joining and replacing. Line boundaries and white space are the
Unicode sets that Python documents, not only the ASCII ones.
-/
namespace Text

abbrev Str := List Char

instance : LawfulBEq Str := inferInstance

/-- A literal text. Its characters are found when it is elaborated, so that neither
evaluation nor unification ever decodes it. -/
-- the `rfl` is the library's own: one declared here is waited for at every literal
@[irreducible] def lit (s : String) {l : Str} (_ : autoParam (s = String.ofList l) Std.Slice.Self.eq._autoParam) :
    Str := l

/-- The code points for which `str.isspace` is true, also the class `\s`. -/
def isSpace (c : Char) : Bool :=
  let n := c.toNat
  (9 ≤ n && n ≤ 13) || (28 ≤ n && n ≤ 32) || n = 0x85 || n = 0xA0 || n = 0x1680 ||
    (0x2000 ≤ n && n ≤ 0x200A) || n = 0x2028 || n = 0x2029 || n = 0x202F || n = 0x205F || n = 0x3000

/-- The boundaries of `str.splitlines`, `\r\n` apart. -/
def isLineBreak (c : Char) : Bool :=
  let n := c.toNat
  (10 ≤ n && n ≤ 13) || (28 ≤ n && n ≤ 30) || n = 0x85 || n = 0x2028 || n = 0x2029

/-- `s.split("\n")`: never empty, the empty text has one empty line. -/
def lines (s : Str) : List Str := s.splitOn '\n'

/-- `"\n".join(ls)` -/
def unlines (ls : List Str) : Str := ['\n'].intercalate ls

def splitlinesFrom (line : Str) : Str → List Str
  | [] => if line = [] then [] else [line]
  | '\r' :: '\n' :: rest => line :: splitlinesFrom [] rest
  | c :: rest => if isLineBreak c then line :: splitlinesFrom [] rest else splitlinesFrom (line ++ [c]) rest

/-- `s.splitlines()`: a final line boundary opens no further line. -/
def splitlines (s : Str) : List Str := splitlinesFrom [] s

def lstrip (s : Str) : Str := s.dropWhile isSpace

def rstrip (s : Str) : Str := (s.reverse.dropWhile isSpace).reverse

def strip (s : Str) : Str := rstrip (lstrip s)

/-- `s.split(None, n)`: at most `n` words are cut off, the rest stays whole. -/
def splitMax : Nat → Str → List Str
  | 0, s => if lstrip s = [] then [] else [lstrip s]
  | n + 1, s => if lstrip s = [] then [] else
      (lstrip s).takeWhile (fun c => !isSpace c) :: splitMax n ((lstrip s).dropWhile (fun c => !isSpace c))

/-- `s.split()` -/
def words (s : Str) : List Str := splitMax s.length s

/-- `s.startswith(p)` -/
def startsWith (p s : Str) : Bool := p.isPrefixOf s

/-- `s.endswith(p)` -/
def endsWith (p s : Str) : Bool := p.isSuffixOf s

/-- `needle in s` -/
def contains (needle s : Str) : Bool := s.tails.any (startsWith needle)

/-- `sep.join(parts)` -/
def join (sep : Str) (parts : List Str) : Str := sep.intercalate parts

/-- The Unicode tables behind `str.lower` and the class `\w`, as far as ASCII
fixes them: a text that begins with ASCII characters lowers to one that begins
with those characters in lower case. -/
structure Unicode where
  lower : Str → Str
  word : Char → Bool
  lower_ascii : ∀ a s, (∀ c ∈ a, c.toNat < 128) → startsWith (a.map Char.toLower) (lower (a ++ s)) = true

/-- The tables restricted to ASCII: every other character stands for itself. -/
def ascii : Unicode where
  lower := List.map Char.toLower
  word c := c.isAlphanum || c = '_'
  lower_ascii a s _ := by simp [startsWith]

/-- What holds of every element, checked one element after the other; not by going through
all characters there are. -/
theorem forall_mem_of_all {α : Type} {l : List α} {p : α → Prop} [DecidablePred p]
    (h : l.all (fun a => decide (p a)) = true) : ∀ a ∈ l, p a := by
  simpa using h

theorem startsWith_iff (p s : Str) : startsWith p s = true ↔ ∃ t, s = p ++ t := by
  simp only [startsWith, List.isPrefixOf_iff_prefix]
  exact ⟨fun ⟨t, h⟩ => ⟨t, h.symm⟩, fun ⟨t, h⟩ => ⟨t, h.symm⟩⟩

@[simp] theorem startsWith_append (p s : Str) : startsWith p (p ++ s) = true :=
  (startsWith_iff p (p ++ s)).mpr ⟨s, rfl⟩

theorem contains_iff (needle s : Str) : contains needle s = true ↔ ∃ a b, s = a ++ needle ++ b := by
  simp only [contains, List.any_eq_true, List.mem_tails, startsWith_iff]
  constructor
  · rintro ⟨t, ⟨a, rfl⟩, b, rfl⟩
    exact ⟨a, b, (List.append_assoc a needle b).symm⟩
  · rintro ⟨a, b, rfl⟩
    exact ⟨needle ++ b, ⟨a, (List.append_assoc a needle b).symm⟩, b, rfl⟩

/-- A text without a newline is found in one of the lines or not at all. -/
theorem contains_append_newline {needle : Str} (hne : needle ≠ []) (h : '\n' ∉ needle) (s t : Str) :
    contains needle (s ++ '\n' :: t) = (contains needle s || contains needle t) := by
  rw [Bool.eq_iff_iff, Bool.or_eq_true, contains_iff, contains_iff, contains_iff]
  constructor
  · rintro ⟨a, b, heq⟩
    rw [List.append_assoc] at heq
    rcases List.append_eq_append_iff.mp heq with ⟨c, rfl, hc⟩ | ⟨c, rfl, hc⟩
    · cases c with
      | nil =>
        obtain ⟨d, rest, rfl⟩ := List.exists_cons_of_ne_nil hne
        cases hc
        exact absurd List.mem_cons_self h
      | cons d c =>
        refine .inr ⟨c, b, ?_⟩
        rw [List.append_assoc]
        exact (List.cons.inj hc).2
    · rcases List.append_eq_append_iff.mp hc with ⟨d, rfl, hd⟩ | ⟨d, rfl, hd⟩
      · exact .inl ⟨a, d, (List.append_assoc a needle d).symm⟩
      · cases d with
        | nil => exact .inl ⟨a, [], by simp⟩
        | cons e d =>
          cases hd
          exact absurd (by simp) h
  · rintro (⟨a, b, rfl⟩ | ⟨a, b, rfl⟩)
    · exact ⟨a, b ++ '\n' :: t, by simp⟩
    · exact ⟨s ++ '\n' :: a, b, by simp⟩

theorem lines_ne_nil (s : Str) : lines s ≠ [] := List.splitOn_ne_nil _ _

@[simp] theorem lines_nil : lines [] = [[]] := rfl

@[simp] theorem unlines_lines (s : Str) : unlines (lines s) = s := List.intercalate_splitOn '\n'

theorem lines_unlines (ls : List Str) (hne : ls ≠ []) (h : ∀ l ∈ ls, '\n' ∉ l) :
    lines (unlines ls) = ls :=
  List.splitOn_intercalate '\n' h hne

/-- A line end cuts the text in two independent parts. -/
theorem lines_append_newline (s t : Str) : lines (s ++ '\n' :: t) = lines s ++ lines t :=
  List.splitOnP_append_cons s t (by simp)

theorem unlines_cons_cons (l l' : Str) (ls : List Str) : unlines (l :: l' :: ls) = l ++ '\n' :: unlines (l' :: ls) := by
  simp [unlines, List.intercalate]

/-- The lines of a text that ends with a line end -/
theorem contains_unlines {needle : Str} (hne : needle ≠ []) (h : '\n' ∉ needle) (ls : List Str) :
    contains needle (unlines ls) = ls.any (contains needle) := by
  induction ls with
  | nil =>
    obtain ⟨c, rest, rfl⟩ := List.exists_cons_of_ne_nil hne
    rfl
  | cons l ls ih =>
    cases ls with
    | nil => simp [unlines]
    | cons l' ls =>
      rw [unlines_cons_cons, contains_append_newline hne h, ih]
      rfl

theorem unlines_newline {ls : List Str} (h : ls ≠ []) : unlines ls ++ ['\n'] = ls.flatMap (· ++ ['\n']) := by
  induction ls with
  | nil => exact absurd rfl h
  | cons l ls ih =>
    cases ls with
    | nil => simp [unlines, List.intercalate]
    | cons l' ls =>
      rw [unlines_cons_cons, List.append_assoc, List.cons_append, ih (by simp), List.flatMap_cons]
      simp

theorem lines_of_no_newline (s : Str) (h : '\n' ∉ s) : lines s = [s] := by
  have hs := lines_unlines [s] (by simp) (by simpa using h)
  simpa [unlines] using hs

theorem lines_cons (c : Char) (s : Str) :
    lines (c :: s) = if c = '\n' then [] :: lines s else (lines s).modifyHead (c :: ·) := by
  simp [lines, List.splitOn, List.splitOnP_cons_eq_if_modifyHead]

theorem mem_lines_cases {l s : Str} (h : l ∈ lines s) :
    l ∈ (lines s).tail ∨ ∃ first, (lines s).head? = some first ∧ [] ++ first = l := by
  cases hlines : lines s with
  | nil => exact absurd hlines (lines_ne_nil s)
  | cons first rest => simpa [hlines, or_comm, eq_comm] using h

/-- A line without further line boundaries is also a line of `str.splitlines`. -/
theorem mem_splitlinesFrom {l : Str} (hne : l ≠ []) (hl : ∀ c ∈ l, isLineBreak c = false) (line s : Str)
    (h : l ∈ (lines s).tail ∨ ∃ first, (lines s).head? = some first ∧ line ++ first = l) :
    l ∈ splitlinesFrom line s := by
  have hbreak : ∀ {c : Char} {a b : Str}, isLineBreak c = true → a ++ c :: b ≠ l := by
    rintro c a b hc rfl
    simp [hl c (by simp)] at hc
  fun_induction splitlinesFrom line s with
  | case1 =>
    rcases h with h | ⟨first, hfirst, hl'⟩
    · simp at h
    · simp only [lines_nil, List.head?_cons, Option.some.injEq] at hfirst
      exact absurd (by simpa [← hfirst] using hl'.symm) hne
  | case2 line hline =>
    rcases h with h | ⟨first, hfirst, hl'⟩
    · simp at h
    · simp only [lines_nil, List.head?_cons, Option.some.injEq] at hfirst
      simp [← hl', ← hfirst]
  | case3 line rest ih =>
    simp only [lines_cons, Char.reduceEq, if_true, if_false, List.modifyHead_cons, List.tail_cons, List.head?_cons,
      Option.some.injEq, exists_eq_left'] at h
    rcases h with h | h
    · exact List.mem_cons_of_mem _ (ih (mem_lines_cases h))
    · exact absurd h (hbreak (by decide))
  | case4 line c rest _ hc ih =>
    rw [lines_cons] at h
    by_cases hn : c = '\n'
    · simp only [hn, if_true, List.tail_cons, List.head?_cons, Option.some.injEq, exists_eq_left', List.append_nil] at h
      rcases h with h | h
      · exact List.mem_cons_of_mem _ (ih (mem_lines_cases h))
      · simp [h]
    · obtain ⟨first, more, hlines⟩ := List.exists_cons_of_ne_nil (lines_ne_nil rest)
      simp only [hn, if_false, hlines, List.modifyHead_cons, List.tail_cons, List.head?_cons, Option.some.injEq,
        exists_eq_left'] at h
      rcases h with h | h
      · exact List.mem_cons_of_mem _ (ih (Or.inl (by simpa [hlines] using h)))
      · exact absurd h (hbreak hc)
  | case5 line c rest _ hc ih =>
    have hn : c ≠ '\n' := by
      rintro rfl
      exact hc (by decide)
    obtain ⟨first, more, hlines⟩ := List.exists_cons_of_ne_nil (lines_ne_nil rest)
    simp only [lines_cons, hn, if_false, hlines, List.modifyHead_cons, List.tail_cons, List.head?_cons,
      Option.some.injEq, exists_eq_left'] at h
    rcases h with h | h
    · exact ih (Or.inl (by simpa [hlines] using h))
    · exact ih (Or.inr ⟨first, by simp [hlines], by simpa using h⟩)

theorem mem_splitlines {l s : Str} (hne : l ≠ []) (hl : ∀ c ∈ l, isLineBreak c = false) (h : l ∈ lines s) :
    l ∈ splitlines s :=
  mem_splitlinesFrom hne hl [] s (mem_lines_cases h)

theorem infix_of_mem_splitlinesFrom {l : Str} (line s : Str) (h : l ∈ splitlinesFrom line s) : l <:+: line ++ s := by
  fun_induction splitlinesFrom line s with
  | case1 => simp at h
  | case2 line hline =>
    rw [List.mem_singleton.mp h, List.append_nil]
  | case3 line rest ih =>
    rcases List.mem_cons.mp h with rfl | h
    · exact ⟨[], '\r' :: '\n' :: rest, by simp⟩
    · exact (ih h).trans ⟨line ++ ['\r', '\n'], [], by simp⟩
  | case4 line c rest _ hc ih =>
    rcases List.mem_cons.mp h with rfl | h
    · exact ⟨[], c :: rest, by simp⟩
    · exact (ih h).trans ⟨line ++ [c], [], by simp⟩
  | case5 line c rest _ hc ih => simpa using ih h

/-- A line stands in its text. -/
theorem contains_of_mem_splitlines {l s : Str} (h : l ∈ splitlines s) : contains l s = true := by
  obtain ⟨a, b, heq⟩ := infix_of_mem_splitlinesFrom [] s h
  exact (contains_iff l s).mpr ⟨a, b, heq.symm⟩

theorem splitlinesFrom_line {line s rest : Str} (hs : ∀ c ∈ s, isLineBreak c = false) :
    splitlinesFrom line (s ++ '\n' :: rest) = (line ++ s) :: splitlines rest := by
  induction s generalizing line with
  | nil =>
    rw [List.nil_append, List.append_nil, splitlinesFrom, if_pos (by decide)]
    · rfl
    · intro t h
      exact absurd h (by decide)
  | cons c s ih =>
    have hc := hs c List.mem_cons_self
    rw [List.cons_append, splitlinesFrom, if_neg (by simp [hc]), ih fun d hd => hs d (List.mem_cons_of_mem _ hd)]
    · simp
    · rintro t rfl
      exact absurd hc (by decide)

theorem splitlines_line {s rest : Str} (hs : ∀ c ∈ s, isLineBreak c = false) :
    splitlines (s ++ '\n' :: rest) = s :: splitlines rest := by
  rw [splitlines, splitlinesFrom_line hs, List.nil_append]

/-! ## Stripping -/

theorem lstrip_of_head {s : Str} (h : ∀ c ∈ s.head?, isSpace c = false) : lstrip s = s := by
  cases s with
  | nil => rfl
  | cons c s => simp [lstrip, h c (by simp)]

theorem head_lstrip (s : Str) : ∀ c ∈ (lstrip s).head?, isSpace c = false := by
  induction s with
  | nil => simp [lstrip]
  | cons c s ih =>
    cases hc : isSpace c with
    | true => simpa [lstrip, hc] using ih
    | false => simp [lstrip, hc]

theorem reverse_rstrip (s : Str) : (rstrip s).reverse = lstrip s.reverse := List.reverse_reverse _

theorem rstrip_prefix (s : Str) : rstrip s <+: s := by
  rw [← List.reverse_suffix, reverse_rstrip]
  exact List.dropWhile_suffix _

theorem head_strip (s : Str) : ∀ c ∈ (strip s).head?, isSpace c = false := by
  intro c hc
  obtain ⟨t, ht⟩ := rstrip_prefix (lstrip s)
  apply head_lstrip s
  rw [← ht, List.head?_append]
  simp [show (rstrip (lstrip s)).head? = some c from hc]

/-- A text with no white space at its ends -/
theorem strip_of_ends {s : Str} (hfirst : ∀ c ∈ s.head?, isSpace c = false)
    (hlast : ∀ c ∈ s.reverse.head?, isSpace c = false) : strip s = s := by
  rw [strip, lstrip_of_head hfirst, ← List.reverse_inj, reverse_rstrip, lstrip_of_head hlast]

/-- A stripped text stays stripped when more is put behind it. -/
theorem strip_append {s t : Str} (ht : t ≠ []) (hh : ∀ c ∈ t.head?, isSpace c = false)
    (hl : ∀ c ∈ t.reverse.head?, isSpace c = false) : strip (strip s ++ t) = strip s ++ t := by
  have hfirst : ∀ c ∈ (strip s ++ t).head?, isSpace c = false := by
    intro c hc
    rw [List.head?_append] at hc
    cases hs : (strip s).head? with
    | none => exact hh c (by simpa [hs] using hc)
    | some d =>
      rw [hs] at hc
      exact head_strip s c (by simpa [hs] using hc)
  have hlast : ∀ c ∈ (strip s ++ t).reverse.head?, isSpace c = false := by
    intro c hc
    apply hl
    rw [List.reverse_append, List.head?_append_of_ne_nil _ (by simpa using ht)] at hc
    exact hc
  exact strip_of_ends hfirst hlast

theorem splitMax_zero (s : Str) : splitMax 0 s = if lstrip s = [] then [] else [lstrip s] := rfl

theorem splitMax_succ (n : Nat) (s : Str) :
    splitMax (n + 1) s = if lstrip s = [] then [] else
      (lstrip s).takeWhile (fun c => !isSpace c) :: splitMax n ((lstrip s).dropWhile (fun c => !isSpace c)) := rfl

theorem splitMax_blank (n : Nat) (r : Str) : splitMax n (' ' :: r) = splitMax n r := by
  have h : lstrip (' ' :: r) = lstrip r := by simp [lstrip, isSpace]
  cases n <;> simp [splitMax_zero, splitMax_succ, h]

/-- The first word of a text is cut off. -/
theorem splitMax_cons (n : Nat) {w : Str} (hne : w ≠ []) (hw : ∀ c ∈ w, isSpace c = false) (r : Str) :
    splitMax (n + 1) (w ++ ' ' :: r) = w :: splitMax n r := by
  have hstart : lstrip (w ++ ' ' :: r) = w ++ ' ' :: r := by
    refine lstrip_of_head fun c hc => hw c ?_
    rw [List.head?_append_of_ne_nil _ hne] at hc
    exact List.mem_of_mem_head? hc
  have hp : ∀ c ∈ w, (fun c => !isSpace c) c = true := fun c hc => by simp [hw c hc]
  have hb : isSpace ' ' = true := by decide
  rw [splitMax_succ, hstart, if_neg (by simp), List.takeWhile_append_of_pos hp, List.dropWhile_append_of_pos hp]
  simp [hb, splitMax_blank]

/-! ## Numbers in a text -/

theorem isAlpha_eq (c : Char) : c.isAlpha = (c.isUpper || c.isLower) := rfl

theorem isUpper_eq (c : Char) : c.isUpper = decide (65 ≤ c.val ∧ c.val ≤ 90) := rfl

theorem isLower_eq (c : Char) : c.isLower = (decide (97 ≤ c.val) && decide (c.val ≤ 122)) := rfl

/-- Letters and digits are those of ASCII. -/
theorem alphanum_lt {c : Char} (h : c.isAlphanum = true) : c.toNat < 128 := by
  simp only [Char.isAlphanum, isAlpha_eq, isUpper_eq, isLower_eq, Char.isDigit, Bool.or_eq_true, Bool.and_eq_true,
    decide_eq_true_eq, UInt32.le_iff_toNat_le] at h
  have hle : c.val.toNat ≤ 122 := by
    rcases h with (h | h) | h
    · exact h.2.trans (by decide)
    · exact h.2
    · exact h.2.trans (by decide)
  exact Nat.lt_of_le_of_lt hle (by decide)

theorem digits_inj {m n : Nat} (h : Nat.toDigits 10 m = Nat.toDigits 10 n) : m = n := by
  rw [← Nat.ofDigitChars_toDigits (b := 10) (n := m) (by decide) (by decide), h,
    Nat.ofDigitChars_toDigits (by decide) (by decide)]

theorem not_mem_digits {c : Char} (hc : c.isDigit = false) (n : Nat) : c ∉ Nat.toDigits 10 n := by
  intro h
  have hdigit := Nat.isDigit_of_mem_toDigits (by decide) (by decide) h
  exact absurd hdigit (by simp [hc])

/-- What stands before and after the first separator. -/
theorem split_first_inj {c : Char} {a b d e : Str} (ha : c ∉ a) (hd : c ∉ d) (h : a ++ c :: b = d ++ c :: e) : a = d ∧ b = e := by
  have hfirst {t : Str} (ht : c ∉ t) : ∀ x ∈ t, decide (x ≠ c) = true := by
    intro x hx
    rw [decide_eq_true_eq]
    rintro rfl
    exact ht hx
  have htake := congrArg (List.takeWhile (fun x => decide (x ≠ c))) h
  rw [List.takeWhile_append_of_pos (hfirst ha), List.takeWhile_append_of_pos (hfirst hd)] at htake
  simp only [ne_eq, not_true_eq_false, decide_false, Bool.false_eq_true, not_false_eq_true,
    List.takeWhile_cons_of_neg, List.append_nil] at htake
  subst htake
  simpa using h

/-- What stands before and after the last separator. -/
theorem split_last_inj {c : Char} {a b d e : Str} (hb : c ∉ b) (he : c ∉ e) (h : a ++ c :: b = d ++ c :: e) : a = d ∧ b = e := by
  have hrev := congrArg List.reverse h
  simp only [List.reverse_append, List.reverse_cons, List.append_assoc, List.singleton_append] at hrev
  obtain ⟨htail, hhead⟩ := split_first_inj (by simpa using hb) (by simpa using he) hrev
  exact ⟨List.reverse_injective hhead, List.reverse_injective htail⟩

end Text
