import Ngcorion.Placeholder

/-!
# Reading a command as POSIX `sh` does

A command is read character by character into the events that make up its
structure: where words begin, their literal characters after quote removal,
operators, file descriptor numbers, expansions, and the text and the ends of
here-documents. The text may have holes; a hole is read as a literal.
-/
namespace Shell

open Text Placeholder

def backquote : Char := Char.ofNat 96

inductive Event where
  | word
  | lit (p : Piece)
  | blank
  | op (c : Char)
  | fd
  | active (c : Char)
  | expand (c : Char)
  | enter
  | leave
  | body (p : Piece)
  | hereEnd
  deriving DecidableEq

/-- The constructs that enclose the text: command substitutions, parentheses and
double quotes. -/
inductive Frame where
  | subst | paren | quoted
  deriving DecidableEq

inductive Quote where
  | none | single | double | escape
  deriving DecidableEq

inductive Mode where
  | base | escaped | single | comment | body
  | dollar | dollarParen | name
  | tick (escaped : Bool)
  | param (depth : Nat) (quote : Quote)
  | arith (depth : Nat)
  deriving DecidableEq

/-- The word so far: none, only unquoted digits, a tilde and a name, or anything else. -/
inductive Word where
  | fresh | digits | tilde | word | holed
  deriving DecidableEq

/-- A here-document whose text is still to come. -/
structure Here where
  delim : Str
  quoted : Bool
  strip : Bool
  deriving DecidableEq

/-- The operator of a here-document and its delimiter, as far as they are read. -/
inductive Redir where
  | none | less | lessless
  | delim (strip quoted started : Bool) (word : Str)
  deriving DecidableEq

/-- The line of a here-document so far: the delimiter up to a rest, or something else. -/
inductive Line where
  | upTo (rest : Str) | off | holed
  deriving DecidableEq

structure Ctrl where
  mode : Mode
  frames : List Frame
  word : Word
  redir : Redir
  pending : List Here
  line : Line

def start : Ctrl := ⟨.base, [], .fresh, .none, [], .off⟩

def isBlank (c : Char) : Bool := c = ' ' || c = '\t'

def isOperator (c : Char) : Bool := c ∈ ['|', '&', ';', '(', ')', '<', '>', '\n']

def isNameStart (c : Char) : Bool := c.isAlpha || c = '_'

def isNameChar (c : Char) : Bool := c.isAlphanum || c = '_'

/-- The parameters of one character, after `$`. -/
def isParameter (c : Char) : Bool := c.isDigit || c ∈ ['@', '*', '#', '?', '-', '$', '!']

/-! ## Here-document delimiters -/

def Redir.add (x : Char) : Redir → Redir
  | .delim strip quoted _ word => .delim strip quoted true (word ++ [x])
  | r => r

def Redir.quote : Redir → Redir
  | .delim strip _ _ word => .delim strip true true word
  | r => r

def Redir.isDelim : Redir → Bool
  | .delim .. => true
  | _ => false

/-- The word ends: a delimiter that was read is one more here-document to come. -/
def Ctrl.close (c : Ctrl) : Ctrl :=
  match c.redir with
  | .delim strip quoted true word => { c with redir := .none, pending := c.pending ++ [⟨word, quoted, strip⟩] }
  | .delim .. => c
  | _ => { c with redir := .none }

def Redir.settle (x : Char) : Redir → Redir
  | .less => if x = '<' then .less else .none
  | .lessless => .delim false false false []
  | r => r

/-! ## Unquoted text -/

def Ctrl.begin (c : Ctrl) : List Event := if c.word = .fresh then [.word] else []

def Word.next (x : Char) : Word → Word
  | .fresh => if x.isDigit then .digits else .word
  | .digits => if x.isDigit then .digits else .word
  | .holed => .holed
  | _ => .word

/-- A line end, after which the texts of here-documents come. -/
def Ctrl.newline (c : Ctrl) : Ctrl × List Event :=
  match c.close.pending with
  | [] => ({ c.close with mode := .base, word := .fresh, redir := .none }, [.op '\n'])
  | h :: hs =>
    ({ c with mode := .body, word := .fresh, redir := .none, pending := h :: hs, line := .upTo h.delim }, [.op '\n'])

def operator (x : Char) (c : Ctrl) : Ctrl × List Event :=
  let fd : List Event := if (x = '<' ∨ x = '>') ∧ c.word = .digits then [.fd] else []
  if x = '\n' then c.newline
  else if x = '(' then ({ c.close with frames := .paren :: c.frames, word := .fresh }, [.op x])
  else if x = ')' then
    match c.frames with
    | .subst :: fs => ({ c.close with frames := fs, word := .word }, [.leave])
    | .paren :: fs => ({ c.close with frames := fs, word := .fresh }, [.op x])
    | _ => ({ c.close with word := .fresh }, [.op x])
  else if x = '<' then
    ({ c.close with word := .fresh, redir := if c.redir = .less then .lessless else .less }, fd ++ [Event.op x])
  else ({ c.close with word := .fresh }, fd ++ [Event.op x])

def unquotedStep (x : Char) (c : Ctrl) : Ctrl × List Event :=
  if isBlank x then ({ c.close with word := .fresh }, [.blank])
  else if isOperator x then operator x c
  else if x = '\'' then ({ c with mode := .single, word := .word, redir := c.redir.quote }, c.begin)
  else if x = '"' then ({ c with frames := .quoted :: c.frames, word := .word, redir := c.redir.quote }, c.begin)
  else if x = '\\' then ({ c with mode := .escaped }, [])
  else if c.redir.isDelim then ({ c with word := .word, redir := c.redir.add x }, c.begin ++ [Event.lit (.char x)])
  else if x = '$' then ({ c with mode := .dollar, word := .word }, c.begin)
  else if x = backquote then ({ c with mode := .tick false, word := .word }, c.begin ++ [Event.expand x])
  else if x = '#' ∧ c.word = .fresh then ({ c with mode := .comment }, [])
  else if x ∈ ['*', '?', '['] then ({ c with word := .word }, c.begin ++ [Event.active x])
  else if x = '~' ∧ c.word = .fresh then ({ c with word := .tilde }, [.word, .active x])
  else if c.word = .tilde ∧ x ≠ '/' then (c, [.active x])
  else ({ c with word := c.word.next x }, c.begin ++ [Event.lit (.char x)])

/-- The operator of a here-document may end in a dash. -/
def plainStep (x : Char) (c : Ctrl) : Ctrl × List Event :=
  if c.redir = .lessless ∧ x = '-' then ({ c with redir := .delim true false false [] }, [.op x])
  else unquotedStep x { c with redir := c.redir.settle x }

/-! ## Quoted text -/

/-- A literal character, which may belong to a delimiter. -/
def literal (x : Char) (c : Ctrl) : Ctrl × List Event := ({ c with redir := c.redir.add x }, [.lit (.char x)])

def quotedStep (x : Char) (c : Ctrl) : Ctrl × List Event :=
  if x = '"' then ({ c with frames := c.frames.tail }, [])
  else if x = '\\' then ({ c with mode := .escaped }, [])
  else if c.redir.isDelim then literal x c
  else if x = '$' then ({ c with mode := .dollar }, [])
  else if x = backquote then ({ c with mode := .tick false }, [.expand x])
  else literal x c

def inQuotes (c : Ctrl) : Bool := c.frames.head? = some .quoted

def baseStep (x : Char) (c : Ctrl) : Ctrl × List Event := if inQuotes c then quotedStep x c else plainStep x c

/-- The character after a backslash; a line end is left out with its backslash. -/
def escapedStep (x : Char) (c : Ctrl) : Ctrl × List Event :=
  if x = '\n' then (c, [])
  else if inQuotes c then
    if x ∈ ['$', backquote, '"', '\\'] then literal x c
    else ((literal x (literal '\\' c).1).1, [.lit (.char '\\'), .lit (.char x)])
  else ({ c with word := .word, redir := c.redir.quote.add x }, c.begin ++ [Event.lit (.char x)])

/-! ## Expansions -/

def dollarStep (x : Char) (c : Ctrl) : Ctrl × List Event :=
  if x = '(' then ({ c with mode := .dollarParen }, [])
  else if x = '{' then ({ c with mode := .param 1 .none }, [.expand '$', .expand x])
  else if isNameStart x then ({ c with mode := .name }, [.expand '$', .expand x])
  else if isParameter x then ({ c with mode := .base }, [.expand '$', .expand x])
  else
    let r := baseStep x { c with mode := .base }
    (r.1, .lit (.char '$') :: r.2)

/-- After the opening parenthesis: arithmetic, or a command substitution. -/
def dollarParenStep (x : Char) (c : Ctrl) : Ctrl × List Event :=
  if x = '(' then ({ c with mode := .arith 2 }, [.expand '$', .expand '(', .expand '('])
  else
    let r := plainStep x { c with mode := .base, frames := .subst :: c.frames, word := .fresh }
    (r.1, .enter :: r.2)

def paramStep (x : Char) (depth : Nat) : Quote → Mode
  | .escape => .param depth .none
  | .single => .param depth (if x = '\'' then .none else .single)
  | .double => .param depth (if x = '"' then .none else .double)
  | .none =>
    if x = '}' then (if depth ≤ 1 then .base else .param (depth - 1) .none)
    else if x = '{' then .param (depth + 1) .none
    else if x = '\\' then .param depth .escape
    else if x = '\'' then .param depth .single
    else if x = '"' then .param depth .double
    else .param depth .none

def arithStep (x : Char) (depth : Nat) : Mode :=
  if x = ')' then (if depth ≤ 1 then .base else .arith (depth - 1))
  else if x = '(' then .arith (depth + 1)
  else .arith depth

/-! ## Here-document texts -/

def Line.next (h : Here) (x : Char) : Line → Line
  | .upTo (d :: rest) =>
    if x = d then .upTo rest
    else if h.strip ∧ x = '\t' ∧ d :: rest = h.delim then .upTo (d :: rest)
    else .off
  | .holed => .holed
  | _ => .off

def bodyStep (x : Char) (c : Ctrl) : Ctrl × List Event :=
  match c.pending with
  | [] => ({ c with mode := .base }, [])
  | h :: hs =>
    if x = '\n' then
      if c.line = .upTo [] then
        ({ c with mode := if hs = [] then .base else .body, pending := hs, line := .upTo ((hs.head?.map Here.delim).getD []) },
          [.hereEnd])
      else ({ c with line := .upTo h.delim }, [.body (.char x)])
    else
      ({ c with line := c.line.next h x },
        [if h.quoted || x ∉ ['$', backquote, '\\'] then .body (.char x) else .active x])

/-! ## Whole commands -/

def stepChar (x : Char) (c : Ctrl) : Ctrl × List Event :=
  match c.mode with
  | .base => baseStep x c
  | .escaped => escapedStep x { c with mode := .base }
  | .single => if x = '\'' then ({ c with mode := .base }, []) else literal x c
  | .comment => if x = '\n' then c.newline else (c, [])
  | .body => bodyStep x c
  | .dollar => dollarStep x c
  | .dollarParen => dollarParenStep x c
  | .name => if isNameChar x then (c, [.expand x]) else baseStep x { c with mode := .base }
  | .tick escaped =>
    ({ c with mode := if !escaped && x = backquote then .base else .tick (!escaped && x = '\\') }, [.expand x])
  | .param depth quote => ({ c with mode := paramStep x depth quote }, [.expand x])
  | .arith depth => ({ c with mode := arithStep x depth }, [.expand x])

/-- A hole is a literal of the word, or of the here-document's line. -/
def stepHole (pat : Str) (c : Ctrl) : Ctrl × List Event :=
  match c.mode with
  | .body => ({ c with line := if c.line = .off then .off else .holed }, [.body (.hole pat)])
  | .base =>
    if inQuotes c then (c, [.lit (.hole pat)]) else ({ c with word := .holed }, c.begin ++ [Event.lit (.hole pat)])
  | _ => (c, [.lit (.hole pat)])

def step (c : Ctrl) : Piece → Ctrl × List Event
  | .char x => stepChar x c
  | .hole pat => stepHole pat c

def run (c : Ctrl) : List Piece → Ctrl × List Event
  | [] => (c, [])
  | p :: ps =>
    let r := step c p
    let later := run r.1 ps
    (later.1, r.2 ++ later.2)

/-- Nothing is left open at the end; the end of the text ends a last delimiter line. -/
def closed (c : Ctrl) : Bool :=
  (c.mode = .base && c.frames = [] && !c.redir.isDelim && c.pending = []) ||
    (c.mode = .body && c.line = .upTo [] && c.pending.length = 1)

/-- The structure of a command. -/
def structureOf (ps : List Piece) : List Event × Bool := ((run start ps).2, closed (run start ps).1)

end Shell
