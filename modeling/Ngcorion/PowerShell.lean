import Ngcorion.Text

/-!
# The tokens of a PowerShell statement

A statement is read character by character; what counts of a token is where it begins and of which kind it is.
A literal in single quotes begins and ends at any of five quote characters, and two of them in a row stand for
one in its text.
-/
namespace PowerShell

open Text

/-- U+0027, and U+2018 to U+201B -/
def isQuote (c : Char) : Bool := c = '\'' || (0x2018 ≤ c.toNat && c.toNat ≤ 0x201B)

/-- U+0022, and U+201C to U+201E -/
def isDoubleQuote (c : Char) : Bool := c = '"' || (0x201C ≤ c.toNat && c.toNat ≤ 0x201E)

def backtick : Char := Char.ofNat 96

def isLineEnd (c : Char) : Bool := c = '\n' || c = '\r'

def isSign (c : Char) : Bool := c ∈ ['|', '&', ';', ',', '(', ')', '{', '}']

/-- What a bare word goes on with -/
def isWord (c : Char) : Bool :=
  !(isQuote c || isDoubleQuote c || isLineEnd c || isSpace c || isSign c || c = backtick)

inductive Kind where
  | word | literal | expandable | comment | lineEnd
  | sign (c : Char)
  deriving DecidableEq

/-- Where the reader stands; after a quote within a literal it has yet to see whether there is a second one. -/
inductive Mode where
  | gap | word | escape | single | singleEnd | double | doubleEnd | doubleEscape | comment
  deriving DecidableEq

/-- A character that no token goes on with. -/
def start (c : Char) : List Kind × Mode :=
  if isQuote c then ([.literal], .single)
  else if isDoubleQuote c then ([.expandable], .double)
  else if isLineEnd c then ([.lineEnd], .gap)
  else if isSpace c then ([], .gap)
  else if isSign c then ([.sign c], .gap)
  else if c = backtick then ([.word], .escape)
  else if c = '#' then ([.comment], .comment)
  else ([.word], .word)

def step (m : Mode) (c : Char) : List Kind × Mode :=
  match m with
  | .gap => start c
  | .word => if isWord c then ([], .word) else if c = backtick then ([], .escape) else start c
  | .escape => ([], .word)
  | .single => ([], if isQuote c then .singleEnd else .single)
  | .singleEnd => if isQuote c then ([], .single) else start c
  | .double => ([], if isDoubleQuote c then .doubleEnd else if c = backtick then .doubleEscape else .double)
  | .doubleEnd => if isDoubleQuote c then ([], .double) else start c
  | .doubleEscape => ([], .double)
  | .comment => if isLineEnd c then start c else ([], .comment)

/-- The tokens that begin in a text, and where the reader stands after it. -/
def run : Mode → Str → List Kind × Mode
  | m, [] => ([], m)
  | m, c :: s => ((step m c).1 ++ (run (step m c).2 s).1, (run (step m c).2 s).2)

/-- The tokens of a statement -/
def shape (s : Str) : List Kind := (run .gap s).1

@[simp] theorem run_nil (m : Mode) : run m [] = ([], m) := rfl

theorem run_cons (m : Mode) (c : Char) (s : Str) :
    run m (c :: s) = ((step m c).1 ++ (run (step m c).2 s).1, (run (step m c).2 s).2) := rfl

theorem run_append (m : Mode) (s t : Str) :
    run m (s ++ t) = ((run m s).1 ++ (run (run m s).2 t).1, (run (run m s).2 t).2) := by
  induction s generalizing m with
  | nil => simp
  | cons c s ih => simp [run_cons, ih]

/-- A part that begins no token and leaves the reader where it was can be exchanged for another one. -/
theorem shape_middle {m : Mode} {a v w b : Str} (ha : (run .gap a).2 = m) (hv : run m v = ([], m)) (hw : run m w = ([], m)) :
    shape (a ++ (v ++ b)) = shape (a ++ (w ++ b)) := by
  simp only [shape, run_append, ha, hv, hw]

/-! ## Within a literal -/

/-- Every run of quote characters has an even length. -/
def paired : Str → Bool
  | [] => true
  | [c] => !isQuote c
  | c :: d :: s => if isQuote c then isQuote d && paired s else paired (d :: s)

theorem paired_cons {c : Char} (h : isQuote c = false) (s : Str) : paired (c :: s) = paired s := by
  cases s with
  | nil => simp [paired, h]
  | cons d s => simp [paired, h]

theorem paired_quote {c : Char} (h : isQuote c = true) (s : Str) :
    paired (c :: s) = true ↔ ∃ d t, s = d :: t ∧ isQuote d = true ∧ paired t = true := by
  cases s with
  | nil => simp [paired, h]
  | cons d s => simp [paired, h]

theorem paired_of_plain {s : Str} (h : ∀ c ∈ s, isQuote c = false) : paired s = true := by
  induction s with
  | nil => rfl
  | cons c s ih =>
    rw [paired_cons (h c List.mem_cons_self)]
    exact ih fun d hd => h d (List.mem_cons_of_mem _ hd)

/-- The reader is not within a literal. -/
def Mode.outside : Mode → Bool
  | .single | .singleEnd => false
  | _ => true

theorem start_outside {c : Char} (h : (start c).1 = []) : (start c).2.outside = true := by
  unfold start at h ⊢
  split_ifs at h ⊢
  rfl

theorem step_outside {m : Mode} {c : Char} (hm : m.outside = true) (h : (step m c).1 = []) : (step m c).2.outside = true := by
  cases m with
  | gap => exact start_outside h
  | word =>
    simp only [step] at h ⊢
    split_ifs at h ⊢
    · rfl
    · rfl
    · exact start_outside h
  | escape => rfl
  | single => cases hm
  | singleEnd => cases hm
  | double =>
    simp only [step]
    split_ifs <;> rfl
  | doubleEnd =>
    simp only [step] at h ⊢
    split_ifs at h ⊢
    · rfl
    · exact start_outside h
  | doubleEscape => rfl
  | comment =>
    simp only [step] at h ⊢
    split_ifs at h ⊢
    · exact start_outside h
    · rfl

/-- A reader that stands outside of literals gets into none without beginning it. -/
theorem run_outside {m : Mode} {s : Str} (hm : m.outside = true) (h : (run m s).1 = []) : (run m s).2.outside = true := by
  induction s generalizing m with
  | nil => exact hm
  | cons c s ih =>
    rw [run_cons] at h ⊢
    obtain ⟨hstep, hrest⟩ := List.append_eq_nil_iff.mp h
    exact ih (step_outside hm hstep) hrest

theorem run_start_ne (c : Char) (s : Str) (m : Mode) (hm : m.outside = false) :
    ((start c).1 ++ (run (start c).2 s).1, (run (start c).2 s).2) ≠ ([], m) := by
  intro h
  simp only [Prod.mk.injEq, List.append_eq_nil_iff] at h
  have hout := run_outside (start_outside h.1.1) h.1.2
  rw [h.2, hm] at hout
  cases hout

/-- A text stays within the literal in which it is put exactly when its quote characters are paired. -/
theorem run_single_iff (s : Str) : run .single s = ([], .single) ↔ paired s = true := by
  fun_induction paired s with
  | case1 => simp
  | case2 c =>
    rw [run_cons, step]
    cases hc : isQuote c <;> simp
  | case3 c d s hc ih =>
    rw [run_cons, step, if_pos hc]
    cases hd : isQuote d with
    | true => simpa [run_cons, step, hd, Prod.ext_iff] using ih
    | false =>
      -- the literal ends before the second character
      have hne := run_start_ne d s .single rfl
      simpa [run_cons, step, hd] using hne
  | case4 c d s hc ih =>
    rw [run_cons, step, if_neg hc]
    simpa [Prod.ext_iff] using ih

theorem run_word {s : Str} (h : ∀ c ∈ s, isWord c = true) : run .word s = ([], .word) := by
  induction s with
  | nil => rfl
  | cons c s ih =>
    rw [run_cons, step, if_pos (h c List.mem_cons_self), ih fun d hd => h d (List.mem_cons_of_mem _ hd)]
    rfl

/-! ## Letters and digits -/

theorem alphanum_facts : ∀ n < 128, (Char.ofNat n).isAlphanum = true →
    isWord (Char.ofNat n) = true ∧ isQuote (Char.ofNat n) = false := by
  with_unfolding_all decide

theorem isWord_of_alphanum {c : Char} (h : c.isAlphanum = true) : isWord c = true ∧ isQuote c = false := by
  have hfacts := alphanum_facts c.toNat (alphanum_lt h)
  rw [Char.ofNat_toNat] at hfacts
  exact hfacts h

end PowerShell
