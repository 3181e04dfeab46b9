import Ngcorion.Nginx.TokenLines

/-!
# Rendering a directive

`render` quotes the arguments that hold white space or special characters, with their backslashes and quotes escaped;
the tokenizer keeps the escapes.
-/
namespace NginxRender

open Text NginxConf

/-- The characters besides white space for which an argument is quoted -/
def special : List Char := [';', '{', '}', '#', '"', '\'']

def needsQuotes (a : Str) : Bool := a = [] || a.any fun c => isSpace c || c ∈ special

/-- `a.replace("\\", "\\\\").replace('"', '\\"')` -/
def escape (a : Str) : Str := a.flatMap fun c => if c = '\\' ∨ c = '"' then ['\\', c] else [c]

def rendered (a : Str) : Str := if needsQuotes a then '"' :: (escape a ++ ['"']) else a

def render (name : Str) (args : List Str) : Str := [' '].intercalate (name :: args.map rendered) ++ [';']

/-- What follows the name -/
def tail (args : List Str) : Str := args.flatMap (fun a => ' ' :: rendered a) ++ [';']

theorem render_eq (name : Str) (args : List Str) : render name args = name ++ tail args := by
  induction args generalizing name with
  | nil => simp [render, tail]
  | cons a args ih =>
    have hi := ih (name ++ ' ' :: rendered a)
    simp only [render, tail, List.map_cons, List.flatMap_cons, List.append_assoc, List.cons_append] at hi ⊢
    rw [← hi]
    cases args <;> simp [List.intercalate]

theorem tail_head (args : List Str) : ∃ c rest, tail args = c :: rest ∧ (c = ' ' ∨ c = ';') := by
  cases args with
  | nil => exact ⟨';', [], rfl, .inr rfl⟩
  | cons b args => exact ⟨' ', _, by simp [tail]; rfl, .inl rfl⟩

/-- The last backslash of a word escapes what follows the word. -/
def dangling : Str → Bool
  | [] => false
  | ['\\'] => true
  | '\\' :: _ :: rest => dangling rest
  | _ :: rest => dangling rest

/-- An argument that is read as it was written: a quoted one has nothing to escape, another one does not escape what
follows it. -/
def Survives (a : Str) : Prop := if needsQuotes a then '\\' ∉ a ∧ '"' ∉ a else dangling a = false

instance : DecidablePred Survives := fun a => by
  unfold Survives
  infer_instance

/-- A name that no character ends or escapes -/
structure PlainWord (name : Str) : Prop where
  nonempty : name ≠ []
  no_comment : name.head? ≠ some '#'
  no_stop : ∀ c ∈ name, c ∉ stops
  no_escape : '\\' ∉ name

/-! ## Words -/

theorem wordLength_plain {x : Char} {s : Str} (hx : x ∉ stops) (hbrace : s.head? ≠ some '{')
    (hescape : x = '\\' → s = []) : wordLength false (x :: s) = wordLength false s + 1 := by
  rw [wordLength.eq_5 _ _ (by rintro rest rfl rfl; simp at hbrace) (by rintro y rest rfl rfl; simp at hescape), if_neg hx]

theorem plain_of_unquoted {a : Str} (h : ¬ needsQuotes a) {x : Char} (hx : x ∈ a) : x ∉ stops ∧ x ≠ '#' := by
  simp only [needsQuotes, Bool.or_eq_true, not_or, List.any_eq_true, not_exists, not_and, decide_eq_true_eq] at h
  obtain ⟨hspace, hspecial⟩ := h.2 x hx
  refine ⟨fun hm => ?_, ?_⟩
  · simp only [stops, List.mem_cons, List.not_mem_nil, or_false] at hm
    rcases hm with rfl | rfl | rfl | rfl | rfl | rfl | rfl | rfl | rfl <;> revert hspace hspecial <;> decide
  · rintro rfl
    exact hspecial (by decide)

theorem head_of_stops {rest : Str} {c : Char} {w : Str} (hw : ∀ x ∈ w, x ∉ stops) (hc : c = ' ' ∨ c = ';') :
    (w ++ c :: rest).head? ≠ some '{' := by
  cases w with
  | nil => rcases hc with rfl | rfl <;> simp
  | cons x w =>
    rintro h
    exact hw x (by simp) (by simp_all [stops])

theorem wordLength_stop {c : Char} (rest : Str) (hc : c = ' ' ∨ c = ';') : wordLength false (c :: rest) = 0 := by
  rcases hc with rfl | rfl <;> simp [wordLength, stops]

/-- A word ends at the separator after it. -/
theorem wordLength_separator {w : Str} {c : Char} (rest : Str) (hw : ∀ x ∈ w, x ∉ stops) (hc : c = ' ' ∨ c = ';')
    (hd : dangling w = false) : wordLength false (w ++ c :: rest) = w.length := by
  fun_induction dangling w with
  | case1 => exact wordLength_stop rest hc
  | case2 => cases hd
  | case3 y w ih =>
    have hi := ih (fun x hx => hw x (by simp [hx])) hd
    simp [wordLength, hi]
  | case4 x w h₁ h₂ ih =>
    have hw' : ∀ y ∈ w, y ∉ stops := fun y hy => hw y (by simp [hy])
    have hescape : x = '\\' → w ++ c :: rest = [] := by
      rintro rfl
      cases w with
      | nil => exact absurd rfl (h₁ rfl)
      | cons y w => exact absurd rfl (h₂ y w rfl)
    rw [List.cons_append, wordLength_plain (hw x (by simp)) (head_of_stops hw' hc) hescape, ih hw' hd, List.length_cons]

/-- A last backslash takes the separator into the word. -/
theorem wordLength_dangling {w : Str} {c : Char} (rest : Str) (hw : ∀ x ∈ w, x ∉ stops) (hc : c = ' ' ∨ c = ';')
    (hd : dangling w = true) : w.length < wordLength false (w ++ c :: rest) := by
  fun_induction dangling w with
  | case1 => cases hd
  | case2 => simp [wordLength]
  | case3 y w ih =>
    have hi := ih (fun x hx => hw x (by simp [hx])) hd
    simpa [wordLength] using hi
  | case4 x w h₁ h₂ ih =>
    have hw' : ∀ y ∈ w, y ∉ stops := fun y hy => hw y (by simp [hy])
    have hescape : x = '\\' → w ++ c :: rest = [] := by
      rintro rfl
      cases w with
      | nil => exact absurd rfl (h₁ rfl)
      | cons y w => exact absurd rfl (h₂ y w rfl)
    rw [List.cons_append, wordLength_plain (hw x (by simp)) (head_of_stops hw' hc) hescape, List.length_cons]
    exact Nat.succ_lt_succ (ih hw' hd)

theorem dangling_of_no_escape {w : Str} (h : '\\' ∉ w) : dangling w = false := by
  fun_induction dangling w with
  | case1 => rfl
  | case2 => simp at h
  | case3 => simp at h
  | case4 x w _ _ ih => exact ih (by simp_all)

/-! ## Quoted texts -/

/-- The escapes keep the quotes of an argument from ending it, and stay in the text. -/
theorem quoteLoop_escape (a rest : Str) (line : Nat) :
    ∃ line', quoteLoop '"' line (escape a ++ '"' :: rest) = some (escape a, line', rest) := by
  induction a generalizing line with
  | nil => exact ⟨line, by simp [escape, quoteLoop]⟩
  | cons x a ih =>
    by_cases hx : x = '\\' ∨ x = '"'
    · obtain ⟨line', h⟩ := ih line
      refine ⟨line', ?_⟩
      have hcons : escape (x :: a) = '\\' :: x :: escape a := by simp [escape, hx]
      simp [hcons, quoteLoop, h]
    · obtain ⟨line', h⟩ := ih (if x = '\n' then line + 1 else line)
      refine ⟨line', ?_⟩
      have hcons : escape (x :: a) = x :: escape a := by simp [escape, hx]
      rw [not_or] at hx
      rw [hcons, List.cons_append, quoteLoop.eq_3 _ _ _ _ (by rintro y r rfl; simp at hx), if_neg hx.2, h]
      rfl

theorem escape_length (a : Str) : (escape a).length = a.length + a.countP fun c => decide (c = '\\' ∨ c = '"') := by
  induction a with
  | nil => rfl
  | cons x a ih =>
    by_cases hx : x = '\\' ∨ x = '"'
    · simp only [escape, List.flatMap_cons, hx, if_true, List.length_append] at ih ⊢
      simp [ih, hx]
      omega
    · simp only [escape, List.flatMap_cons, hx, if_false, List.length_append] at ih ⊢
      simp [ih, hx]
      omega

theorem escape_eq_self (a : Str) : escape a = a ↔ '\\' ∉ a ∧ '"' ∉ a := by
  constructor
  · intro h
    have hzero : a.countP (fun c => decide (c = '\\' ∨ c = '"')) = 0 := by
      have := escape_length a
      rw [h] at this
      omega
    rw [List.countP_eq_zero] at hzero
    exact ⟨fun hm => hzero _ hm (by simp), fun hm => hzero _ hm (by simp)⟩
  · rintro ⟨hb, hq⟩
    induction a with
    | nil => rfl
    | cons x a ih =>
      simp only [List.mem_cons, not_or] at hb hq
      have hx : ¬ (x = '\\' ∨ x = '"') := by simp [Ne.symm hb.1, Ne.symm hq.1]
      simpa [escape, hx] using ih hb.2 hq.2

/-! ## The first directive -/

def wordsOf (d : Directive) : List Str := d.header.name :: d.header.args

/-- The words read so far of the first directive at the top level -/
def first : List (Header × List Directive) → List Directive → List Str → List Str
  | [], [], words => words
  | [], d :: _, _ => wordsOf d
  | b :: above, _, _ => first above b.2 (b.1.name :: b.1.args)

theorem first_add (above : List (Header × List Directive)) (sink : List Directive) (d : Directive) (words : List Str) :
    first above (sink ++ [d]) words = first above sink (wordsOf d) := by
  cases above with
  | nil => cases sink <;> rfl
  | cons b above => rfl

theorem first_word (above : List (Header × List Directive)) (sink : List Directive) (words : List Str) (w : Str) :
    first above sink words <+: first above sink (words ++ [w]) := by
  cases above with
  | nil =>
    cases sink with
    | nil => exact List.prefix_append _ _
    | cons d sink => exact List.prefix_refl _
  | cons b above => exact List.prefix_refl _

/-- The first directive keeps the words that have been read of it. -/
theorem parseLoop_first {path : Str} {failed : Option Str} {p : Parser} {ts : List Token} {ds : List Directive}
    (h : parseLoop path failed p ts = .ok ds) : first p.above p.sink (p.words.map (·.1)) <+: first [] ds [] := by
  fun_induction parseLoop path failed p ts with
  | case1 => cases h
  | case2 => cases h
  | case3 p _ hend =>
    have ha : p.above = [] := by tauto
    have hw : p.words = [] := by tauto
    cases h
    simp [ha, hw]
  | case4 p tok rest _ _ ih => exact ih h
  | case5 p tok rest _ w ws hw ih => simpa [first_add, wordsOf, Directive.header, Parser.directive, hw] using ih h
  | case6 => cases h
  | case7 => cases h
  | case8 p tok rest _ _ w ws hw _ _ _ _ ih =>
    simpa [first_add, wordsOf, Directive.header, Parser.directive, hw] using ih h
  | case9 p tok rest _ _ w ws hw _ ih => simpa [first, Parser.directive, hw] using ih h
  | case10 => cases h
  | case11 => cases h
  | case12 p tok rest _ _ _ _ block before above ha ih =>
    simpa [ha, first, first_add, wordsOf, Directive.header] using ih h
  | case13 p tok rest _ _ _ ih =>
    have hi := ih h
    rw [List.map_append] at hi
    exact (first_word ..).trans hi

/-! ## Reading a rendered directive -/

/-- The parser at a place of the text -/
def read (path : Str) (i line : Nat) (p : Parser) (s : Str) : Except Str (List Directive) :=
  parseLoop path (tokenizeFrom i line s).2 p (tokenizeFrom i line s).1

section

variable (path : Str) (i line : Nat) (p : Parser)

theorem read_blank (s : Str) : read path i line p (' ' :: s) = read path (i + 1) line p s := by
  simp [read, tokenizeFrom]

theorem parseLoop_word (failed : Option Str) {t : Token} (ts : List Token)
    (ht : t.quoted = true ∨ t.text ∉ [[';'], ['{'], ['}']]) :
    parseLoop path failed p (t :: ts) = parseLoop path failed { p with words := p.words ++ [(t.text, t.line)] } ts := by
  rw [parseLoop]
  rcases ht with ht | ht
  · simp [ht]
  · simp only [List.mem_cons, not_or] at ht
    simp [ht]

theorem read_word {c : Char} {s : Str} (hc : c ∉ stops) (hhash : c ≠ '#') {n : Nat} (hn : wordLength false (c :: s) = n) :
    read path i line p (c :: s) =
      read path (i + n) line { p with words := p.words ++ [((c :: s).take n, line)] } ((c :: s).drop n) := by
  have hsep : (c :: s).take n ∉ [[';'], ['{'], ['}']] := by
    obtain ⟨m, rfl⟩ : ∃ m, n = m + 1 := ⟨n - 1, by have := wordLength_pos s hc; omega⟩
    rw [List.take_succ_cons]
    intro h
    simp only [List.mem_cons, List.cons.injEq, List.not_mem_nil, or_false] at h
    rcases h with ⟨rfl, -⟩ | ⟨rfl, -⟩ | ⟨rfl, -⟩ <;> simp [stops] at hc
  have htok : tokenizeFrom i line (c :: s) =
      (tokenizeFrom (i + n) line ((c :: s).drop n)).map (⟨(c :: s).take n, line, false, i⟩ :: ·) id := by
    rw [tokenizeFrom, hn]
    simp only [stops, List.mem_cons, not_or] at hc
    simp [hc, hhash]
  rw [read, htok, read, Prod.map_fst, Prod.map_snd, id, parseLoop_word _ _ _ _ (.inr hsep)]

theorem read_quoted {q : Char} {s body after : Str} {line' : Nat} (hq : q = '"')
    (hloop : quoteLoop q line s = some (body, line', after)) :
    read path i line p (q :: s) =
      read path (i + (s.length + 1 - after.length)) line' { p with words := p.words ++ [(body, line)] } after := by
  subst hq
  have htok : tokenizeFrom i line ('"' :: s) =
      (tokenizeFrom (i + (s.length + 1 - after.length)) line' after).map (⟨body, line, true, i⟩ :: ·) id := by
    rw [tokenizeFrom, if_neg (by decide), if_neg (by decide), if_neg (by decide), if_neg (by decide), if_pos (by decide)]
    split
    · simp_all
    · simp_all
  rw [read, htok, read, Prod.map_fst, Prod.map_snd, id, parseLoop_word _ _ _ _ (.inl rfl)]

end

/-- What the parser promises for rendered text: exactly one directive with the words -/
def Reads (r : Except Str (List Directive)) (words : List Str) : Prop :=
  ∃ h : Header, r = .ok [.simple h] ∧ h.name :: h.args = words

/-- Only the words that have been read can be a directive's first words. -/
theorem Reads.words {path : Str} {i line n : Nat} {words : List (Str × Nat)} {s : Str} {ws : List Str}
    (h : Reads (read path i line ⟨[], [], words, n⟩ s) ws) : words.map (·.1) <+: ws := by
  obtain ⟨h, hr, rfl⟩ := h
  exact parseLoop_first hr

/-- What follows the name is read back exactly when every argument survives. -/
theorem read_tail (path : Str) (i line n : Nat) (words : List (Str × Nat)) (hwords : words ≠ []) (args : List Str) :
    Reads (read path i line ⟨[], [], words, n⟩ (tail args)) (words.map (·.1) ++ args) ↔ ∀ a ∈ args, Survives a := by
  induction args generalizing i line words with
  | nil =>
    obtain ⟨w, ws, rfl⟩ := List.exists_cons_of_ne_nil hwords
    have hread : read path i line ⟨[], [], w :: ws, n⟩ (tail []) =
        .ok [.simple ⟨n, w.1, ws.map (·.1), path, w.2, line, none⟩] := by
      simp [read, tail, tokenizeFrom, parseLoop, Parser.directive]
    simp [Reads, hread]
  | cons a args ih =>
    have htail : tail (a :: args) = ' ' :: (rendered a ++ tail args) := by simp [tail]
    obtain ⟨c, rest, hrest, hc⟩ := tail_head args
    rw [htail, read_blank, List.forall_mem_cons]
    -- what is read for the argument, and what it has to be
    have hnext : ∀ (j line' : Nat) (w : Str), w = a →
        (Reads (read path j line' ⟨[], [], words ++ [(w, line)], n⟩ (tail args)) (words.map (·.1) ++ a :: args) ↔
          ∀ b ∈ args, Survives b) := by
      rintro j line' w rfl
      simpa using ih j line' (words ++ [(w, line)]) (by simp)
    have hother : ∀ (j line' : Nat) (w s : Str), w ≠ a →
        ¬ Reads (read path j line' ⟨[], [], words ++ [(w, line)], n⟩ s) (words.map (·.1) ++ a :: args) := by
      intro j line' w s hw h
      have hp := h.words
      simp only [List.map_append, List.map_cons, List.map_nil, List.prefix_append_right_inj,
        List.cons_prefix_cons] at hp
      exact hw hp.1
    by_cases hq : needsQuotes a
    · obtain ⟨line', hloop⟩ := quoteLoop_escape a (tail args) line
      have hrendered : rendered a ++ tail args = '"' :: (escape a ++ '"' :: tail args) := by simp [rendered, hq]
      rw [hrendered, read_quoted path _ _ _ rfl hloop]
      by_cases ha : escape a = a
      · have hs : Survives a := by simpa [Survives, hq] using (escape_eq_self a).mp ha
        simpa [hs] using hnext _ line' _ ha
      · have hs : ¬ Survives a := by simpa [Survives, hq] using mt (escape_eq_self a).mpr ha
        simpa [hs] using hother _ line' _ _ ha
    · have hplain : ∀ x ∈ a, x ∉ stops := fun x hx => (plain_of_unquoted hq hx).1
      have hrendered : rendered a = a := by simp [rendered, hq]
      obtain ⟨x, a', rfl⟩ : ∃ x a', a = x :: a' := List.exists_cons_of_ne_nil (by rintro rfl; simp [needsQuotes] at hq)
      have hhash : x ≠ '#' := (plain_of_unquoted hq List.mem_cons_self).2
      rw [hrendered, List.cons_append, read_word path _ _ _ (hplain x (by simp)) hhash rfl]
      by_cases hd : dangling (x :: a')
      · have hs : ¬ Survives (x :: a') := by simp [Survives, hq, hd]
        have hlen := wordLength_dangling rest hplain hc hd
        rw [← hrest, List.cons_append] at hlen
        have hle := TokenLines.wordLength_le false (x :: (a' ++ tail args))
        refine iff_of_false (hother _ line _ _ fun hw => ?_) (by simp [hs])
        have hw' := congrArg List.length hw
        rw [List.length_take, Nat.min_eq_left hle] at hw'
        omega
      · have hs : Survives (x :: a') := by simp [Survives, hq, hd]
        have hlen := wordLength_separator rest hplain hc (by simpa using hd)
        rw [← hrest, List.cons_append] at hlen
        simp only [hlen]
        simpa [hs] using hnext _ line _ rfl

/-- A rendered directive is read back as the one directive with its name and arguments exactly when every argument
survives: a quoted one holds no backslash and no double quote, another one does not end by escaping what follows. -/
theorem render_reads_iff (name : Str) (args : List Str) (path : Str) (hname : PlainWord name) :
    Reads (parse_file (render name args) path) (name :: args) ↔ ∀ a ∈ args, Survives a := by
  obtain ⟨x, rest, rfl⟩ := List.exists_cons_of_ne_nil hname.nonempty
  obtain ⟨c, after, hafter, hc⟩ := tail_head args
  have hlen := wordLength_separator after hname.no_stop hc (dangling_of_no_escape hname.no_escape)
  rw [← hafter, List.cons_append] at hlen
  have hhash : x ≠ '#' := fun h => hname.no_comment (by simp [h])
  have hparse : parse_file (render (x :: rest) args) path = read path 0 1 .start (x :: (rest ++ tail args)) := by
    rw [render_eq]
    rfl
  rw [hparse, read_word path 0 1 .start (hname.no_stop x (by simp)) hhash hlen]
  simpa [Parser.start] using read_tail path (x :: rest).length 1 0 [(x :: rest, 1)] (by simp) args

theorem render_reads_plain :
    Reads (parse_file (render (lit "add_header") [lit "X", [], lit "a b;\x7b\x7d#'", lit "$v", lit "\\\\"]) [])
      [lit "add_header", lit "X", [], lit "a b;\x7b\x7d#'", lit "$v", lit "\\\\"] :=
  (render_reads_iff _ _ [] ⟨by with_unfolding_all decide, by with_unfolding_all decide, forall_mem_of_all
    (by with_unfolding_all decide), by with_unfolding_all decide⟩).mpr
    (by with_unfolding_all decide)

/-- A double quote in an argument comes back with the backslash that escapes it. -/
theorem quote_does_not_survive :
    PlainWord (lit "return") ∧ ¬ Reads (parse_file (render (lit "return") [lit "a\"b"]) []) [lit "return", lit "a\"b"] := by
  refine ⟨⟨by with_unfolding_all decide, by with_unfolding_all decide, forall_mem_of_all
    (by with_unfolding_all decide), by with_unfolding_all decide⟩, ?_⟩
  have htokens : tokenize (render (lit "return") [lit "a\"b"]) =
      ([⟨lit "return", 1, false, 0⟩, ⟨lit "a\\\"b", 1, true, 7⟩, ⟨[';'], 1, false, 13⟩], none) := by
        with_unfolding_all decide
  have hne : lit "a\\\"b" ≠ lit "a\"b" := by with_unfolding_all decide
  rintro ⟨h, hparse, hwords⟩
  rw [parse_file, htokens, parseLoop_word _ _ _ _ (.inr
    (by with_unfolding_all decide)), parseLoop_word _ _ _ _ (.inl rfl)] at hparse
  have hfirst : [lit "return", lit "a\\\"b"] <+: h.name :: h.args := parseLoop_first hparse
  rw [hwords, List.cons_prefix_cons, List.cons_prefix_cons] at hfirst
  exact hne hfirst.2.1

end NginxRender
