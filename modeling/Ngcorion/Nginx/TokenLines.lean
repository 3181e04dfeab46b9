import Ngcorion.Nginx.Conf

/-!
# The lines of the tokens

A text is first cut into lexemes, without lines; the tokenizer is these with a count of the newlines it has passed. It
does not count a newline inside a word, nor one that a backslash escapes in a quoted text.
-/
namespace TokenLines

open Text NginxConf

/-! ## Lexemes -/

inductive Lexeme where
  | newline
  | blank (c : Char) (is_blank : c ∈ [' ', '\t', '\r'])
  | comment (body : Str) (one_line : '\n' ∉ body)
  | mark (c : Char) (is_mark : c ∈ ['{', '}', ';'])
  | quoted (quote : Char) (is_quote : quote ∈ ['"', '\'']) (body : Str)
  | word (text : Str)

namespace Lexeme

def raw : Lexeme → Str
  | newline => ['\n']
  | blank c _ => [c]
  | comment body _ => '#' :: body
  | mark c _ => [c]
  | quoted quote _ body => quote :: (body ++ [quote])
  | word text => text

/-- The token of a lexeme: its text, and whether it is quoted. -/
def token : Lexeme → Option (Str × Bool)
  | mark c _ => some ([c], false)
  | quoted _ _ body => some (body, true)
  | word text => some (text, false)
  | _ => none

end Lexeme

theorem newline_notin_takeWhile (s : Str) : '\n' ∉ s.takeWhile (· ≠ '\n') := by
  intro h
  have hall := List.all_eq_true.mp (List.all_takeWhile (p := (· ≠ '\n')) (l := s)) _ h
  simp at hall

/-- The lexemes of a text; none where a quoted text is not closed. -/
def lex (s : Str) : Option (List Lexeme) :=
  match s with
  | [] => some []
  | c :: rest =>
    if c = '\n' then (lex rest).map (.newline :: ·)
    else if h : c ∈ [' ', '\t', '\r'] then (lex rest).map (.blank c h :: ·)
    else if c = '#' then
      (lex (rest.dropWhile (· ≠ '\n'))).map (.comment (rest.takeWhile (· ≠ '\n')) (newline_notin_takeWhile rest) :: ·)
    else if h : c ∈ ['{', '}', ';'] then (lex rest).map (.mark c h :: ·)
    else if h : c ∈ ['"', '\''] then
      match _h : quoteLoop c 0 rest with
      | none => none
      | some (body, _, after) => (lex after).map (.quoted c h body :: ·)
    else
      (lex ((c :: rest).drop (wordLength false (c :: rest)))).map
        (.word ((c :: rest).take (wordLength false (c :: rest))) :: ·)
termination_by s.length
decreasing_by
  · simp
  · simp
  · exact Nat.lt_succ_of_le (List.dropWhile_suffix _).length_le
  · simp
  · exact Nat.lt_succ_of_lt (quoteLoop_length _h)
  · have := wordLength_pos (c := c) rest (by simp_all [stops])
    simp only [List.length_drop, List.length_cons]
    omega

/-! ## The newlines of a lexeme -/

/-- The newlines of a quoted body that no backslash escapes -/
def plainNewlines : Str → Nat
  | '\\' :: _ :: rest => plainNewlines rest
  | c :: rest => (if c = '\n' then 1 else 0) + plainNewlines rest
  | [] => 0

/-- Those that a backslash escapes -/
def escapedNewlines : Str → Nat
  | '\\' :: c :: rest => (if c = '\n' then 1 else 0) + escapedNewlines rest
  | _ :: rest => escapedNewlines rest
  | [] => 0

theorem newlines_body (s : Str) : plainNewlines s + escapedNewlines s = s.count '\n' := by
  fun_induction plainNewlines s with
  | case1 c rest ih =>
    rw [escapedNewlines, List.count_cons, List.count_cons, ← ih]
    simp
    omega
  | case2 c rest hc ih =>
    rw [escapedNewlines.eq_2 _ _ hc, List.count_cons, ← ih]
    simp
    omega
  | case3 => rfl

namespace Lexeme

def counted : Lexeme → Nat
  | newline => 1
  | quoted _ _ body => plainNewlines body
  | _ => 0

def missed : Lexeme → Nat
  | quoted _ _ body => escapedNewlines body
  | word text => text.count '\n'
  | _ => 0

theorem counted_add_missed (l : Lexeme) : l.counted + l.missed = l.raw.count '\n' := by
  cases l with
  | newline => rfl
  | blank c hc =>
    have : c ≠ '\n' := by rintro rfl; simp at hc
    simp [counted, missed, raw, this]
  | comment body hb => simp [counted, missed, raw, List.count_eq_zero.mpr hb]
  | mark c hc =>
    have : c ≠ '\n' := by rintro rfl; simp at hc
    simp [counted, missed, raw, this]
  | quoted quote hq body =>
    have : quote ≠ '\n' := by rintro rfl; simp at hq
    simp [counted, missed, raw, List.count_append, this, newlines_body]
  | word text => simp [counted, missed, raw]

end Lexeme

/-! ## The tokenizer and the lexemes -/

theorem quoteLoop_eq {quote : Char} {line : Nat} {s : Str} {r : Str × Nat × Str} (h : quoteLoop quote line s = some r) :
    s = r.1 ++ quote :: r.2.2 ∧ r.2.1 = line + plainNewlines r.1 := by
  fun_induction quoteLoop quote line s generalizing r with
  | case1 => cases h
  | case2 line c rest ih =>
    obtain ⟨r', hr', rfl⟩ := Option.map_eq_some_iff.mp h
    obtain ⟨hs, hl⟩ := ih hr'
    exact ⟨by simp [← hs], by simp [plainNewlines, hl]⟩
  | case3 line rest =>
    cases h
    exact ⟨rfl, rfl⟩
  | case4 line c rest hc hq ih =>
    obtain ⟨r', hr', rfl⟩ := Option.map_eq_some_iff.mp h
    obtain ⟨hs, hl⟩ := ih hr'
    refine ⟨by simp [← hs], ?_⟩
    have hplain : plainNewlines (c :: r'.1) = (if c = '\n' then 1 else 0) + plainNewlines r'.1 := by
      refine plainNewlines.eq_2 c r'.1 fun d tl hbs htl => ?_
      rw [hs, htl] at hc
      exact hc d _ hbs rfl
    simp only [hl, hplain]
    split <;> omega

/-- The line only passes through the loop. -/
theorem quoteLoop_line (quote : Char) (line : Nat) (s : Str) :
    quoteLoop quote line s = (quoteLoop quote 0 s).map fun r => (r.1, line + r.2.1, r.2.2) := by
  suffices h : ∀ a b, quoteLoop quote (a + b) s = (quoteLoop quote b s).map fun r => (r.1, a + r.2.1, r.2.2) from
    h line 0
  intro a b
  fun_induction quoteLoop quote b s with
  | case1 => simp [quoteLoop]
  | case2 b c rest ih => simp [quoteLoop, ih, Function.comp_def]
  | case3 b rest hc => simp [quoteLoop.eq_3 _ _ _ _ hc]
  | case4 b c rest hc hq ih =>
    have hnext : (if c = '\n' then a + b + 1 else a + b) = a + if c = '\n' then b + 1 else b := by split <;> omega
    rw [quoteLoop.eq_3 _ _ _ _ hc, if_neg hq, hnext, ih]
    simp [Function.comp_def]

/-- The tokens of lexemes that begin at an index and a line -/
def place : Nat → Nat → List Lexeme → List Token
  | _, _, [] => []
  | i, line, l :: ls =>
    (l.token.map fun t => ⟨t.1, line, t.2, i⟩).toList ++ place (i + l.raw.length) (line + l.counted) ls

theorem raw_lex {s : Str} {ls : List Lexeme} (h : lex s = some ls) : ls.flatMap Lexeme.raw = s := by
  fun_induction lex s generalizing ls with
  | case1 => cases h; rfl
  | case2 rest ih =>
    obtain ⟨ls', hls', rfl⟩ := Option.map_eq_some_iff.mp h
    simp [Lexeme.raw, ih hls']
  | case3 c rest _ hb ih =>
    obtain ⟨ls', hls', rfl⟩ := Option.map_eq_some_iff.mp h
    simp [Lexeme.raw, ih hls']
  | case4 rest _ _ ih =>
    obtain ⟨ls', hls', rfl⟩ := Option.map_eq_some_iff.mp h
    simp [Lexeme.raw, ih hls', List.takeWhile_append_dropWhile]
  | case5 c rest _ _ _ _ ih =>
    obtain ⟨ls', hls', rfl⟩ := Option.map_eq_some_iff.mp h
    simp [Lexeme.raw, ih hls']
  | case6 => cases h
  | case7 c rest _ _ _ _ hq body line after hloop ih =>
    obtain ⟨ls', hls', rfl⟩ := Option.map_eq_some_iff.mp h
    simp [Lexeme.raw, ih hls', ← (quoteLoop_eq hloop).1]
  | case8 c rest _ _ _ _ _ ih =>
    obtain ⟨ls', hls', rfl⟩ := Option.map_eq_some_iff.mp h
    simp only [List.flatMap_cons, Lexeme.raw, ih hls', List.take_append_drop]

theorem quoteLoop_length_eq {quote : Char} {line : Nat} {s : Str} {r : Str × Nat × Str}
    (h : quoteLoop quote line s = some r) : s.length + 1 - r.2.2.length = r.1.length + 2 := by
  have := congrArg List.length (quoteLoop_eq h).1
  simp only [List.length_append, List.length_cons] at this
  omega

theorem wordLength_le (inside : Bool) (s : Str) : wordLength inside s ≤ s.length := by
  fun_induction wordLength inside s with
  | case1 => simp
  | case2 c rest ih => simpa using ih
  | case3 rest ih => simpa using ih
  | case4 c rest ih => simpa using ih
  | case5 => simp
  | case6 c rest _ _ _ ih => simpa using ih

/-- The tokenizer yields the tokens of the lexemes. -/
theorem tokenizeFrom_of_lex {s : Str} {ls : List Lexeme} (h : lex s = some ls) (i line : Nat) :
    tokenizeFrom i line s = (place i line ls, none) := by
  fun_induction lex s generalizing i line ls with
  | case1 =>
    cases h
    simp [tokenizeFrom, place]
  | case2 rest ih =>
    obtain ⟨ls', hls', rfl⟩ := Option.map_eq_some_iff.mp h
    rw [tokenizeFrom]
    simp [ih hls', place, Lexeme.raw, Lexeme.token, Lexeme.counted]
  | case3 c rest hn hb ih =>
    obtain ⟨ls', hls', rfl⟩ := Option.map_eq_some_iff.mp h
    rw [tokenizeFrom, if_neg hn, if_pos hb, ih hls']
    simp [place, Lexeme.raw, Lexeme.token, Lexeme.counted]
  | case4 rest hn hb ih =>
    obtain ⟨ls', hls', rfl⟩ := Option.map_eq_some_iff.mp h
    rw [tokenizeFrom, if_neg hn, if_neg hb, if_pos rfl, ih hls']
    simp [place, Lexeme.raw, Lexeme.token, Lexeme.counted, Nat.add_assoc, Nat.add_comm]
  | case5 c rest hn hb hc hm ih =>
    obtain ⟨ls', hls', rfl⟩ := Option.map_eq_some_iff.mp h
    rw [tokenizeFrom, if_neg hn, if_neg hb, if_neg hc, if_pos hm, ih hls']
    simp [place, Lexeme.raw, Lexeme.token, Lexeme.counted]
  | case6 => cases h
  | case7 c rest hn hb hc hm hq body line' after hloop ih =>
    obtain ⟨ls', hls', rfl⟩ := Option.map_eq_some_iff.mp h
    have hline := quoteLoop_line c line rest
    rw [hloop, Option.map_some] at hline
    have hplain : line' = plainNewlines body := by simpa using (quoteLoop_eq hloop).2
    have hlen := quoteLoop_length_eq hloop
    rw [tokenizeFrom, if_neg hn, if_neg hb, if_neg hc, if_neg hm, if_pos hq]
    split
    · rename_i h'
      simp [hline] at h'
    · rename_i h'
      rw [hline] at h'
      cases h'
      rw [ih hls']
      simp only at hlen
      simp [place, Lexeme.raw, Lexeme.token, Lexeme.counted, hplain, hlen]
  | case8 c rest hn hb hc hm hq ih =>
    obtain ⟨ls', hls', rfl⟩ := Option.map_eq_some_iff.mp h
    have hlen := wordLength_le false (c :: rest)
    rw [tokenizeFrom, if_neg hn, if_neg hb, if_neg hc, if_neg hm, if_neg hq, ih hls']
    simp only [place, Lexeme.raw, Lexeme.token, Lexeme.counted, List.length_take, Nat.min_eq_left hlen]
    simp

/-- A text without lexemes is refused. -/
theorem tokenizeFrom_of_lex_none {s : Str} (h : lex s = none) (i line : Nat) : (tokenizeFrom i line s).2 ≠ none := by
  fun_induction lex s generalizing i line with
  | case1 => cases h
  | case2 rest ih =>
    rw [tokenizeFrom]
    exact ih (Option.map_eq_none_iff.mp h) _ _
  | case3 c rest hn hb ih =>
    rw [tokenizeFrom, if_neg hn, if_pos hb]
    exact ih (Option.map_eq_none_iff.mp h) _ _
  | case4 rest hn hb ih =>
    rw [tokenizeFrom, if_neg hn, if_neg hb, if_pos rfl]
    exact ih (Option.map_eq_none_iff.mp h) _ _
  | case5 c rest hn hb hc hm ih =>
    rw [tokenizeFrom, if_neg hn, if_neg hb, if_neg hc, if_pos hm]
    exact ih (Option.map_eq_none_iff.mp h) _ _
  | case6 c rest hn hb hc hm hq hloop =>
    have hline := quoteLoop_line c line rest
    rw [hloop, Option.map_none] at hline
    rw [tokenizeFrom, if_neg hn, if_neg hb, if_neg hc, if_neg hm, if_pos hq]
    split
    · simp
    · rename_i h'
      simp [hline] at h'
  | case7 c rest hn hb hc hm hq body line' after hloop ih =>
    have hline := quoteLoop_line c line rest
    rw [hloop, Option.map_some] at hline
    rw [tokenizeFrom, if_neg hn, if_neg hb, if_neg hc, if_neg hm, if_pos hq]
    split
    · rename_i h'
      simp [hline] at h'
    · rename_i h'
      rw [hline] at h'
      cases h'
      exact ih (Option.map_eq_none_iff.mp h) _ _
  | case8 c rest hn hb hc hm hq ih =>
    rw [tokenizeFrom, if_neg hn, if_neg hb, if_neg hc, if_neg hm, if_neg hq]
    exact ih (Option.map_eq_none_iff.mp h) _ _

theorem lex_of_accepted {text : Str} (h : (tokenize text).2 = none) : ∃ ls, lex text = some ls := by
  cases hl : lex text with
  | some ls => exact ⟨ls, rfl⟩
  | none => exact absurd h (tokenizeFrom_of_lex_none hl 0 1)

/-! ## The true lines -/

/-- The line on which a token really begins -/
def trueLine (text : Str) (t : Token) : Nat := 1 + (text.take t.start).count '\n'

def relined (text : Str) (t : Token) : Token := { t with line := trueLine text t }

/-- No newline is missed before another token. -/
def NoneMissed : List Lexeme → Prop
  | [] => True
  | l :: ls => (l.missed = 0 ∨ ∀ k ∈ ls, k.token = none) ∧ NoneMissed ls

instance decNoneMissed : DecidablePred NoneMissed
  | [] => isTrue trivial
  | _ :: ls => @instDecidableAnd _ _ inferInstance (decNoneMissed ls)

/-- No newline within a word or after a backslash of a quoted text has another token after it. -/
def Counted (text : Str) : Prop := ∃ ls, lex text = some ls ∧ NoneMissed ls

instance (text : Str) : Decidable (Counted text) :=
  decidable_of_iff ((lex text).any (fun ls => NoneMissed ls) = true) (by simp [Counted, Option.any_eq_true])

/-- `d` newlines have been missed before the lexemes. -/
theorem place_lines (ls : List Lexeme) (pre : Str) (line d : Nat) (hd : line + d = 1 + pre.count '\n') :
    (∀ t ∈ place pre.length line ls, t.line = trueLine (pre ++ ls.flatMap Lexeme.raw) t) ↔
      (d = 0 ∨ ∀ k ∈ ls, k.token = none) ∧ NoneMissed ls := by
  induction ls generalizing pre line d with
  | nil => simp [place, NoneMissed]
  | cons l ls ih =>
    have hcount := l.counted_add_missed
    have hi := ih (pre ++ l.raw) (line + l.counted) (d + l.missed) (by simp only [List.count_append]; omega)
    simp only [List.length_append, List.append_assoc] at hi
    have hhere : (∀ t ∈ (l.token.map fun t => (⟨t.1, line, t.2, pre.length⟩ : Token)).toList,
        t.line = trueLine (pre ++ (l.raw ++ ls.flatMap Lexeme.raw)) t) ↔ d = 0 ∨ l.token = none := by
      cases l.token with
      | none => simp
      | some t =>
        simp [trueLine]
        omega
    simp only [place, List.mem_append, or_imp, forall_and, List.flatMap_cons, hi, hhere, NoneMissed,
      List.mem_cons, forall_eq, Nat.add_eq_zero_iff]
    tauto

/-- Every token has its true line exactly when no newline is missed before another token. -/
theorem tokens_true_iff {text : Str} {ls : List Lexeme} (h : lex text = some ls) :
    (∀ t ∈ (tokenize text).1, t.line = trueLine text t) ↔ NoneMissed ls := by
  have hp := place_lines ls [] 1 0 rfl
  simp only [List.nil_append, List.length_nil, raw_lex h, true_or, true_and] at hp
  rw [tokenize, tokenizeFrom_of_lex h]
  exact hp

/-- At its start a token stands in the text. -/
theorem raw_at_start {ls : List Lexeme} {pre : Str} {line : Nat} {t : Token} (h : t ∈ place pre.length line ls) :
    ∃ l ∈ ls, l.token = some (t.text, t.quoted) ∧ l.raw <+: (pre ++ ls.flatMap Lexeme.raw).drop t.start := by
  induction ls generalizing pre line with
  | nil => simp [place] at h
  | cons l ls ih =>
    rcases List.mem_append.mp h with h | h
    · obtain ⟨k, hk, rfl⟩ := Option.map_eq_some_iff.mp (Option.mem_toList.mp h)
      exact ⟨l, by simp, hk, by simp⟩
    · rw [← List.length_append] at h
      obtain ⟨k, hk, htok, hraw⟩ := ih h
      exact ⟨k, by simp [hk], htok, by simpa using hraw⟩

/-! ## The lines of the directives -/

/-- What the tokenizer and the parser of an accepted text promise: every token has its true line, and so have the
directives: they are those of the tokens with their true lines. -/
def LinesTrue (text : Str) : Prop :=
  (∀ t ∈ (tokenize text).1, t.line = trueLine text t) ∧
    ∀ path ds, parse_file text path = .ok ds →
      parseLoop path none .start ((tokenize text).1.map (relined text)) = .ok ds

end TokenLines
