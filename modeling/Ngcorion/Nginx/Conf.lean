import Ngcorion.Hardening.ParamSecurity

/-!
# nginx configuration files

`tokenize` cuts a file into words, quoted texts and the separators `{`, `}` and `;`, each with its line, and
`parse_file` builds the directives from them with a stack of open blocks.
-/
namespace NginxConf

open Text

/-! ## The tokenizer -/

/-- A token and its line. `start` is the index at which it begins in the text, of its opening quote for a quoted one. -/
structure Token where
  text : Str
  line : Nat
  quoted : Bool
  start : Nat
  deriving DecidableEq

/-- The characters that end a word -/
def stops : List Char := [' ', '\t', '\r', '\n', ';', '{', '}', '"', '\'']

/-- The loop over a quoted text: what it holds, the line after it and what follows; none where it is not closed. -/
def quoteLoop (quote : Char) : Nat → Str → Option (Str × Nat × Str)
  | _, [] => none
  | line, '\\' :: c :: rest => (quoteLoop quote line rest).map fun r => ('\\' :: c :: r.1, r.2)
  | line, c :: rest =>
    if c = quote then some ([], line, rest)
    else (quoteLoop quote (if c = '\n' then line + 1 else line) rest).map fun r => (c :: r.1, r.2)

/-- The length of a word. The flag is that it is between `${` and the next `}`. -/
def wordLength : Bool → Str → Nat
  | _, [] => 0
  | true, c :: rest => wordLength (c ≠ '}') rest + 1
  | false, '$' :: '{' :: rest => wordLength true rest + 2
  | false, '\\' :: _ :: rest => wordLength false rest + 2
  | false, c :: rest => if c ∈ stops then 0 else wordLength false rest + 1

theorem quoteLoop_length {quote : Char} {line : Nat} {s : Str} {r : Str × Nat × Str} (h : quoteLoop quote line s = some r) :
    r.2.2.length < s.length := by
  fun_induction quoteLoop quote line s generalizing r with
  | case1 => cases h
  | case2 line c rest ih =>
    obtain ⟨r', hr', rfl⟩ := Option.map_eq_some_iff.mp h
    have := ih hr'
    simp only [List.length_cons]
    omega
  | case3 line rest =>
    cases h
    simp
  | case4 line c rest _ _ ih =>
    obtain ⟨r', hr', rfl⟩ := Option.map_eq_some_iff.mp h
    have := ih hr'
    simp only [List.length_cons]
    omega

theorem wordLength_pos {c : Char} (rest : Str) (h : c ∉ stops) : 0 < wordLength false (c :: rest) := by
  unfold wordLength
  split <;> simp_all

/-- The loop of `tokenize`: the tokens, and the error that ends them if the text cannot be read to its end. -/
def tokenizeFrom (i line : Nat) (s : Str) : List Token × Option Str :=
  match s with
  | [] => ([], none)
  | c :: rest =>
    if c = '\n' then tokenizeFrom (i + 1) (line + 1) rest
    else if c ∈ [' ', '\t', '\r'] then tokenizeFrom (i + 1) line rest
    else if c = '#' then
      tokenizeFrom (i + 1 + (rest.takeWhile (· ≠ '\n')).length) line (rest.dropWhile (· ≠ '\n'))
    else if c ∈ ['{', '}', ';'] then (tokenizeFrom (i + 1) line rest).map (⟨[c], line, false, i⟩ :: ·) id
    else if c ∈ ['"', '\''] then
      match _h : quoteLoop c line rest with
      | none => ([], some (lit "unterminated quote starting on line " ++ ParamSecurity.decimal line))
      | some (buf, line', after) =>
        (tokenizeFrom (i + (rest.length + 1 - after.length)) line' after).map (⟨buf, line, true, i⟩ :: ·) id
    else
      (tokenizeFrom (i + wordLength false (c :: rest)) line ((c :: rest).drop (wordLength false (c :: rest)))).map
        (⟨(c :: rest).take (wordLength false (c :: rest)), line, false, i⟩ :: ·) id
termination_by s.length
decreasing_by
  · simp
  · simp
  · exact Nat.lt_succ_of_le (List.dropWhile_suffix _).length_le
  · simp
  · exact Nat.lt_succ_of_lt (quoteLoop_length _h)
  · have := wordLength_pos (c := c) rest (by simp_all [stops])
    simp only [List.length_drop, List.length_cons]
    omega

def tokenize (text : Str) : List Token × Option Str := tokenizeFrom 0 1 text

/-! ## Directives -/

/-- What a directive has apart from its children. `id` tells the objects apart, `parent` is the enclosing block's. -/
structure Header where
  id : Nat
  name : Str
  args : List Str
  file : Str
  line : Nat
  end_line : Nat
  parent : Option Nat

inductive Directive where
  | simple (header : Header)
  | block (header : Header) (children : List Directive) (close_line : Nat)

def Directive.header : Directive → Header
  | .simple h => h
  | .block h _ _ => h

def Directive.children : Directive → List Directive
  | .simple _ => []
  | .block _ children _ => children

def Directive.is_block : Directive → Bool
  | .simple _ => false
  | .block .. => true

/-! ## The parser -/

/-- `above` are the open blocks, innermost first, each with the directives before it; `sink` are those of the
innermost one so far; `words` are the words of the next directive with their lines; `next` is the next new object. -/
structure Parser where
  above : List (Header × List Directive)
  sink : List Directive
  words : List (Str × Nat)
  next : Nat

def Parser.start : Parser := ⟨[], [], [], 0⟩

/-- The directive of the pending words -/
def Parser.directive (p : Parser) (path : Str) (word : Str × Nat) (words : List (Str × Nat)) (end_line : Nat) : Header :=
  ⟨p.next, word.1, words.map (·.1), path, word.2, end_line, p.above.head?.map (·.1.id)⟩

def luaBlock : Str := lit "_by_lua_block"

/-- How the tokens end: with the tokenizer's error or with the caller's. -/
def ended (failed : Option Str) (message : Str) : Str := failed.getD message

/-- The braces of a Lua body are counted until the block closes: its last line and the tokens after it. -/
def _skip_raw_block (failed : Option Str) (line : Nat) : Nat → List Token → Except Str (Nat × List Token)
  | _, [] => .error (ended failed (lit "unterminated block starting on line " ++ ParamSecurity.decimal line))
  | depth, tok :: rest =>
    if tok.quoted then _skip_raw_block failed line depth rest
    else if tok.text = ['{'] then _skip_raw_block failed line (depth + 1) rest
    else if tok.text = ['}'] then
      if depth - 1 = 0 then .ok (tok.line, rest) else _skip_raw_block failed line (depth - 1) rest
    else _skip_raw_block failed line depth rest

theorem skip_raw_block_length {failed : Option Str} {line depth : Nat} {ts : List Token} {r : Nat × List Token}
    (h : _skip_raw_block failed line depth ts = .ok r) : r.2.length < ts.length := by
  fun_induction _skip_raw_block failed line depth ts with
  | case1 => cases h
  | case2 depth tok rest _ ih => exact Nat.lt_succ_of_lt (ih h)
  | case3 depth tok rest _ _ ih => exact Nat.lt_succ_of_lt (ih h)
  | case4 depth tok rest =>
    cases h
    simp
  | case5 depth tok rest _ _ _ _ ih => exact Nat.lt_succ_of_lt (ih h)
  | case6 depth tok rest _ _ _ ih => exact Nat.lt_succ_of_lt (ih h)

/-- `f"{path}:{ln}: {message}"` -/
def located (path : Str) (line : Nat) (message : Str) : Str :=
  path ++ ':' :: ParamSecurity.decimal line ++ lit ": " ++ message

/-- The loop of `parse_file` and the test after it. -/
def parseLoop (path : Str) (failed : Option Str) (p : Parser) (tokens : List Token) : Except Str (List Directive) :=
  match tokens with
  | [] =>
    match failed with
    | some e => .error e
    | none =>
      if p.words ≠ [] ∨ p.above ≠ [] then .error (path ++ lit ": unexpected end of file") else .ok p.sink
  | tok :: rest =>
    if ¬ tok.quoted ∧ tok.text = [';'] then
      match p.words with
      | [] => parseLoop path failed p rest
      | w :: ws =>
        parseLoop path failed
          { p with sink := p.sink ++ [.simple (p.directive path w ws tok.line)], words := [], next := p.next + 1 } rest
    else if ¬ tok.quoted ∧ tok.text = ['{'] then
      match p.words with
      | [] => .error (located path tok.line (lit "block without a name"))
      | w :: ws =>
        if luaBlock.isSuffixOf w.1 then
          match _h : _skip_raw_block failed tok.line 1 rest with
          | .error e => .error e
          | .ok (close_line, rest') =>
            parseLoop path failed
              { p with
                sink := p.sink ++ [.block (p.directive path w ws tok.line) [] close_line]
                words := []
                next := p.next + 1 } rest'
        else
          parseLoop path failed
            ⟨(p.directive path w ws tok.line, p.sink) :: p.above, [], [], p.next + 1⟩ rest
    else if ¬ tok.quoted ∧ tok.text = ['}'] then
      if p.words ≠ [] then .error (located path tok.line (lit "directive without ';'"))
      else
        match p.above with
        | [] => .error (located path tok.line (lit "unexpected '\x7d'"))
        | (block, before) :: above =>
          parseLoop path failed
            { p with above := above, sink := before ++ [.block block p.sink tok.line] } rest
    else parseLoop path failed { p with words := p.words ++ [(tok.text, tok.line)] } rest
termination_by tokens.length
decreasing_by
  all_goals first
    | exact Nat.lt_succ_self _
    | exact Nat.lt_succ_of_lt (skip_raw_block_length _h)

def parse_file (text path : Str) : Except Str (List Directive) :=
  parseLoop path (tokenize text).2 .start (tokenize text).1

end NginxConf
