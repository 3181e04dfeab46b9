import Ngcorion.ShellFill

/-!
# `sed` scripts

A script is read character by character into the events that make up its
structure: addresses, the letters of its commands, the delimiters between the parts
of `s`, flags, names of files and labels, and the literal characters of patterns,
replacements and of the texts of `a`, `i` and `c`. Such a script is a word of a shell
command. The script and the command may have holes; as long as the value of a hole
keeps to the text or part that holds it, the filled script has the structure of
the template's.
-/
namespace Sed

open Text Placeholder

inductive Event where
  | addr (c : Char)
  | func (c : Char)
  | part
  | lit (p : Piece)
  | flag (c : Char)
  | name (c : Char)
  | ended
  | fault
  deriving DecidableEq

/-- What is being read. `slash` follows the backslash after `a`, `i` or `c`, `custom`
the one that names the delimiter of an address. -/
inductive Mode where
  | command | custom | delim | flags | after | opening | slash | name | label | comment | fault
  | regex (delim : Char) (escaped : Bool)
  | part (delim : Char) (more escaped : Bool)
  | text (escaped : Bool)
  deriving DecidableEq

abbrev Step := Mode × List Event

def refuse : Step := (.fault, [.fault])

/-! ## Reading a script -/

def commandStep (x : Char) : Step :=
  if Shell.isBlank x ∨ x = ';' ∨ x = '\n' then (.command, [])
  else if x = '/' then (.regex x false, [.addr x])
  else if x = '\\' then (.custom, [])
  else if x.isDigit ∨ x ∈ ['$', ',', '+', '~', '!', 'I', 'M'] then (.command, [.addr x])
  else if x = '#' then (.comment, [])
  else if x = '{' then (.command, [.func x])
  else if x ∈ ['s', 'y'] then (.delim, [.func x])
  else if x ∈ ['a', 'i', 'c'] then (.opening, [.func x])
  else if x ∈ ['r', 'R', 'w', 'W', 'e'] then (.name, [.func x])
  else if x ∈ [':', 'b', 't', 'T', 'v'] then (.label, [.func x])
  else if x ∈ ['}', '=', 'd', 'D', 'F', 'g', 'G', 'h', 'H', 'l', 'L', 'n', 'N', 'p', 'P', 'q', 'Q', 'x', 'z'] then
    (.after, [.func x])
  else refuse

/-- After a command: another one, the end of a block, or a number that the command takes. -/
def afterStep (x : Char) : Step :=
  if Shell.isBlank x then (.after, [])
  else if x = ';' ∨ x = '\n' then (.command, [.ended])
  else if x = '}' then (.after, [.ended, .func x])
  else if x = '#' then (.comment, [.ended])
  else if x.isDigit then (.after, [.flag x])
  else refuse

/-- The flags of `s`; `w` is followed by the name of a file. -/
def flagStep (x : Char) : Step :=
  if x.isDigit ∨ x ∈ ['g', 'p', 'i', 'I', 'm', 'M', 'e'] then (.flags, [.flag x])
  else if x = 'w' then (.name, [.flag x])
  else afterStep x

/-- A text goes on to the end of the line, unless a backslash stands before that. -/
def textStep (x : Char) : Bool → Step
  | true => (.text false, [.lit (.char x)])
  | false =>
    if x = '\n' then (.command, [.ended])
    else if x = '\\' then (.text true, [.lit (.char x)])
    else (.text false, [.lit (.char x)])

/-- A part goes on to its delimiter, unless a backslash stands before that. -/
def partStep (x delim : Char) (resume : Bool → Mode) (next : Step) : Bool → Step
  | true => (resume false, [.lit (.char x)])
  | false =>
    if x = delim then next
    else if x = '\n' then refuse
    else if x = '\\' then (resume true, [.lit (.char x)])
    else (resume false, [.lit (.char x)])

def stepChar (x : Char) : Mode → Step
  | .command => commandStep x
  | .custom => if x = '\\' ∨ x = '\n' then refuse else (.regex x false, [.addr x])
  | .delim => if x = '\\' ∨ x = '\n' then refuse else (.part x true false, [.part])
  | .flags => flagStep x
  | .after => afterStep x
  | .opening =>
    if Shell.isBlank x then (.opening, [])
    else if x = '\\' then (.slash, [])
    else if x = '\n' then refuse
    else (.text false, [.lit (.char x)])
  | .slash => (.text false, if x = '\n' then [] else [.lit (.char x)])
  | .name => if x = '\n' then (.command, [.ended]) else (.name, [.name x])
  | .label => if x = '\n' ∨ x = ';' then (.command, [.ended]) else (.label, [.name x])
  | .comment => (if x = '\n' then .command else .comment, [])
  | .fault => (.fault, [])
  | .regex delim escaped => partStep x delim (.regex delim) (.command, [.addr x]) escaped
  | .part delim more escaped =>
    partStep x delim (.part delim more) (if more then .part delim false false else .flags, [.part]) escaped
  | .text escaped => textStep x escaped

/-- A hole is a literal. -/
def step (m : Mode) : Piece → Step
  | .char x => stepChar x m
  | .hole pat => (m, [.lit (.hole pat)])

def run (m : Mode) : List Piece → Step
  | [] => (m, [])
  | p :: ps =>
    let r := step m p
    let later := run r.1 ps
    (later.1, r.2 ++ later.2)

/-- Nothing is left open at the end of the script. -/
def closed (m : Mode) : Bool := m ∈ [.command, .flags, .after, .name, .label, .comment, .text false]

/-- The structure of a script. -/
def structureOf (script : List Piece) : List Event × Bool :=
  ((run .command script).2, closed (run .command script).1)

/-! ## The values in a script -/

/-- The characters that end a text or a part, where a value may stand. -/
def stops : Mode → Option (List Char)
  | .text false => some ['\n']
  | .regex delim false => some [delim, '\n']
  | .part delim _ false => some [delim, '\n']
  | _ => none

/-- No stop without a backslash before it, and no backslash at the end. -/
def inert (stops : List Char) : Str → Bool
  | [] => true
  | '\\' :: [] => false
  | '\\' :: _ :: v => '\\' ∉ stops && inert stops v
  | c :: v => c ∉ stops && inert stops v

def lits (v : Str) : List Event := v.map (fun c => .lit (.char c))

/-- A hole becomes the characters of its value. -/
def fillEvent (value : Str → Str) : Event → List Event
  | .lit (.hole pat) => lits (value pat)
  | e => [e]

def fillEvents (value : Str → Str) (es : List Event) : List Event := es.flatMap (fillEvent value)

/-- Every value keeps to the text or part that holds it. -/
def fits (value : Str → Str) : Mode → List Piece → Bool
  | _, [] => true
  | m, .char x :: ps => fits value (stepChar x m).1 ps
  | m, .hole pat :: ps => (stops m).any (fun stops => inert stops (value pat)) && fits value m ps

theorem run_append (m : Mode) (ps qs : List Piece) :
    run m (ps ++ qs) = ((run (run m ps).1 qs).1, (run m ps).2 ++ (run (run m ps).1 qs).2) := by
  induction ps generalizing m with
  | nil => rfl
  | cons p ps ih => simp only [List.cons_append, run, ih, List.append_assoc]

/-- A place for values: its stops, and how it goes on. -/
theorem stops_cases {m : Mode} {ss : List Char} (h : stops m = some ss) :
    ∃ resume : Bool → Mode, m = resume false ∧
      (∀ x, stepChar x (resume true) = (resume false, [.lit (.char x)])) ∧
      ∀ x ∉ ss, stepChar x (resume false) = (resume (x = '\\'), [.lit (.char x)]) := by
  cases m with
  | text escaped =>
    cases escaped with
    | true => simp [stops] at h
    | false =>
      cases h
      refine ⟨.text, rfl, fun _ => rfl, fun x hx => ?_⟩
      by_cases hb : x = '\\' <;> simp_all [stepChar, textStep]
  | regex delim escaped =>
    cases escaped with
    | true => simp [stops] at h
    | false =>
      cases h
      refine ⟨.regex delim, rfl, fun _ => rfl, fun x hx => ?_⟩
      by_cases hb : x = '\\' <;> simp_all [stepChar, partStep]
  | part delim more escaped =>
    cases escaped with
    | true => simp [stops] at h
    | false =>
      cases h
      refine ⟨.part delim more, rfl, fun _ => rfl, fun x hx => ?_⟩
      by_cases hb : x = '\\' <;> simp_all [stepChar, partStep]
  | _ => simp [stops] at h

/-- An inert value is literal text, and the place is as before. -/
theorem run_inert {m : Mode} {ss : List Char} (h : stops m = some ss) (v : Str) (hv : inert ss v = true) :
    run m (v.map .char) = (m, lits v) := by
  obtain ⟨resume, rfl, hescaped, hplain⟩ := stops_cases h
  fun_induction inert ss v with
  | case1 => rfl
  | case2 => simp at hv
  | case3 c v ih =>
    simp only [Bool.and_eq_true, decide_eq_true_eq] at hv
    have hfirst := hplain '\\' hv.1
    simp only [decide_true] at hfirst
    simp [run, step, hfirst, hescaped, ih hv.2, lits]
  | case4 c v hc hne ih =>
    simp only [Bool.and_eq_true, decide_eq_true_eq] at hv
    have hb : c ≠ '\\' := by
      rintro rfl
      cases v with
      | nil => exact hc rfl rfl
      | cons d v => exact hne d v rfl rfl
    have hfirst := hplain c hv.1
    simp only [hb, decide_false] at hfirst
    simp [run, step, hfirst, ih hv.2, lits]

@[simp] theorem fillEvents_append (value : Str → Str) (es es' : List Event) :
    fillEvents value (es ++ es') = fillEvents value es ++ fillEvents value es' := by
  simp [fillEvents]

/-- Events without a hole. -/
def Solid (r : Step) : Prop := ∀ value, fillEvents value r.2 = r.2

theorem solid_ite {p : Prop} [Decidable p] {r r' : Step} (h : Solid r) (h' : Solid r') :
    Solid (if p then r else r') := by
  split
  · exact h
  · exact h'

theorem solid_commandStep (x : Char) : Solid (commandStep x) := by
  unfold commandStep
  repeat' apply solid_ite
  all_goals exact fun _ => rfl

theorem solid_afterStep (x : Char) : Solid (afterStep x) := by
  unfold afterStep
  repeat' apply solid_ite
  all_goals exact fun _ => rfl

theorem solid_flagStep (x : Char) : Solid (flagStep x) :=
  solid_ite (fun _ => rfl) (solid_ite (fun _ => rfl) (solid_afterStep x))

theorem solid_partStep (x delim : Char) (resume : Bool → Mode) {next : Step} (h : Solid next) (escaped : Bool) :
    Solid (partStep x delim resume next escaped) := by
  cases escaped with
  | true => exact fun _ => rfl
  | false => exact solid_ite h (solid_ite (fun _ => rfl) (solid_ite (fun _ => rfl) (fun _ => rfl)))

theorem solid_textStep (x : Char) (escaped : Bool) : Solid (textStep x escaped) := by
  cases escaped with
  | true => exact fun _ => rfl
  | false => exact solid_ite (fun _ => rfl) (solid_ite (fun _ => rfl) (fun _ => rfl))

/-- A character of the script is never read as a hole. -/
theorem solid_stepChar (x : Char) (m : Mode) : Solid (stepChar x m) := by
  cases m with
  | command => exact solid_commandStep x
  | custom => exact solid_ite (fun _ => rfl) (fun _ => rfl)
  | delim => exact solid_ite (fun _ => rfl) (fun _ => rfl)
  | flags => exact solid_flagStep x
  | after => exact solid_afterStep x
  | opening => exact solid_ite (fun _ => rfl) (solid_ite (fun _ => rfl) (solid_ite (fun _ => rfl) (fun _ => rfl)))
  | slash =>
    intro value
    simp only [stepChar]
    split <;> rfl
  | name => exact solid_ite (fun _ => rfl) (fun _ => rfl)
  | label => exact solid_ite (fun _ => rfl) (fun _ => rfl)
  | comment => exact fun _ => rfl
  | fault => exact fun _ => rfl
  | regex delim escaped => exact solid_partStep x delim _ (fun _ => rfl) escaped
  | part delim more escaped => exact solid_partStep x delim _ (fun _ => rfl) escaped
  | text escaped => exact solid_textStep x escaped

/-- The structure of the filled script is the template's, with the values in it. -/
theorem run_fill (value : Str → Str) (ps : List Piece) (m : Mode) (h : fits value m ps = true) :
    run m (ShellFill.fillPieces value ps) = ((run m ps).1, fillEvents value (run m ps).2) := by
  induction ps generalizing m with
  | nil => rfl
  | cons p ps ih =>
    cases p with
    | char x => simp only [ShellFill.fillPieces, run, step, ih _ h, fillEvents_append, solid_stepChar x m value]
    | hole pat =>
      simp only [fits, Bool.and_eq_true, Option.any_eq_true] at h
      obtain ⟨⟨ss, hstops, hinert⟩, hrest⟩ := h
      rw [ShellFill.fillPieces, run_append, run_inert hstops _ hinert, ih m hrest]
      simp [run, step, fillEvents, fillEvent]

theorem structureOf_fill (value : Str → Str) (script : List Piece) (h : fits value .command script = true) :
    structureOf (ShellFill.fillPieces value script) =
      (fillEvents value (structureOf script).1, (structureOf script).2) := by
  simp only [structureOf, run_fill value script .command h]

/-! ## The simple commands of a shell command -/

/-- The pieces of a word; whatever the shell expands is left open. -/
abbrev Word := List (Option Piece)

/-- The next word, or the one being read, is the target of a redirection. -/
inductive Target where
  | none | next | inside
  deriving DecidableEq

/-- A simple command so far, its last word first. -/
structure Line where
  words : List Word
  target : Target

def Line.start : Line := ⟨[], .none⟩

def Line.word (l : Line) : Line :=
  if l.target = .next then { l with target := .inside } else ⟨[] :: l.words, .none⟩

def Line.add (w : Word) (l : Line) : Line :=
  if l.target = .inside then l else { l with words := l.words.modifyHead (· ++ w) }

/-- The command being read, those that a command substitution in it has interrupted, and
the commands before. -/
structure Scan where
  line : Line
  outer : List Line
  done : List (List Word)

def Scan.start : Scan := ⟨.start, [], []⟩

def Scan.finish (s : Scan) : Scan := { s with line := .start, done := s.done ++ [s.line.words.reverse] }

def Scan.step (s : Scan) : Shell.Event → Scan
  | .word => { s with line := s.line.word }
  | .lit p => { s with line := s.line.add [some p] }
  | .active _ => { s with line := s.line.add [none] }
  | .expand _ => { s with line := s.line.add [none] }
  | .fd => { s with line := { s.line with words := s.line.words.tail } }
  | .op c =>
    if c = '<' ∨ c = '>' then { s with line := { s.line with target := .next } }
    else if s.line.target = .next ∧ c ∈ ['&', '|', '-'] then s
    else s.finish
  | .enter => { s with line := .start, outer := s.line.add [none] :: s.outer }
  | .leave =>
    match s.outer with
    | [] => s.finish
    | l :: ls => { s.finish with line := l, outer := ls }
  | .blank => s
  | .body _ => s
  | .hereEnd => s

def simpleCommands (es : List Shell.Event) : List (List Word) :=
  let s := es.foldl Scan.step .start
  s.done ++ (s.line :: s.outer).map (fun l => l.words.reverse)

/-! ## The script of a simple command -/

def reserved : List Str :=
  [lit "if", lit "then", lit "elif", lit "else", lit "do", lit "while", lit "until", lit "!", lit "\x7b"]

/-- The text of a word that has neither a hole nor an expansion. -/
def textOf : Word → Option Str
  | [] => some []
  | some (.char c) :: w => (textOf w).map (c :: ·)
  | _ => none

def inName : Word → Bool
  | some (.char c) :: w => c = '=' || (Shell.isNameChar c && inName w)
  | _ => false

/-- The word assigns a variable. -/
def assigns : Word → Bool
  | some (.char c) :: w => Shell.isNameStart c && inName w
  | _ => false

/-- Words before the name of a command. -/
def leads (w : Word) : Bool := (textOf w).any (· ∈ reserved) || assigns w

def isOption : Word → Bool
  | some (.char c) :: _ :: _ => c = '-'
  | _ => false

/-- The script that a simple command runs: the first argument of `sed` that is no option. -/
def scriptOf (words : List Word) : Option Word :=
  match words.dropWhile leads with
  | [] => none
  | w :: ws => if textOf w = some (lit "sed") then ws.find? (fun w => !isOption w) else none

def piecesOf : Word → Option (List Piece)
  | [] => some []
  | some p :: w => (piecesOf w).map (p :: ·)
  | none :: _ => none

/-- The scripts among the words of a command, as far as its text gives them. -/
def scripts (es : List Shell.Event) : List (List Piece) :=
  (simpleCommands es).filterMap (fun words => (scriptOf words).bind piecesOf)

/-! ## Filled commands -/

def fillPiece (value : Str → Str) : Option Piece → Word
  | some (.hole pat) => (value pat).map (fun c => some (.char c))
  | p => [p]

def fillWord (value : Str → Str) (w : Word) : Word := w.flatMap (fillPiece value)

def Line.fill (value : Str → Str) (l : Line) : Line := { l with words := l.words.map (fillWord value) }

def Scan.fill (value : Str → Str) (s : Scan) : Scan :=
  ⟨s.line.fill value, s.outer.map (Line.fill value), s.done.map (List.map (fillWord value))⟩

section
variable (value : Str → Str)

@[simp] theorem fillWord_append (w w' : Word) :
    fillWord value (w ++ w') = fillWord value w ++ fillWord value w' := by
  simp [fillWord]

@[simp] theorem fillWord_char (c : Char) (w : Word) :
    fillWord value (some (.char c) :: w) = some (.char c) :: fillWord value w := rfl

theorem Line.fill_word (l : Line) : (l.fill value).word = l.word.fill value := by
  obtain ⟨words, target⟩ := l
  by_cases ht : target = .next <;> simp [Line.word, Line.fill, ht, fillWord]

theorem Line.fill_add (w : Word) (l : Line) : (l.fill value).add (fillWord value w) = (l.add w).fill value := by
  obtain ⟨words, target⟩ := l
  by_cases ht : target = .inside
  · simp [Line.add, Line.fill, ht]
  · cases words <;> simp [Line.add, Line.fill, ht]

theorem Line.add_append (w w' : Word) (l : Line) : l.add (w ++ w') = (l.add w).add w' := by
  obtain ⟨words, target⟩ := l
  by_cases ht : target = .inside
  · simp [Line.add, ht]
  · cases words <;> simp [Line.add, ht]

theorem Line.add_nil (l : Line) : l.add [] = l := by
  obtain ⟨words, target⟩ := l
  by_cases ht : target = .inside
  · simp [Line.add, ht]
  · cases words <;> simp [Line.add, ht]

/-- Literal characters are added to the word that is being read. -/
theorem foldl_lits (v : Str) (s : Scan) :
    (ShellFill.lits v).foldl Scan.step s = { s with line := s.line.add (v.map (fun c => some (.char c))) } := by
  induction v generalizing s with
  | nil => simp [ShellFill.lits, Line.add_nil]
  | cons c v ih =>
    have hsplit := Line.add_append [some (.char c)] (v.map (fun c => some (.char c))) s.line
    simp only [List.singleton_append] at hsplit
    simp only [ShellFill.lits, List.map_cons, List.foldl_cons] at ih ⊢
    rw [ih, hsplit]
    rfl

theorem Scan.fill_finish (s : Scan) : (s.fill value).finish = s.finish.fill value := by
  simp [Scan.finish, Scan.fill, Line.fill, Line.start]

/-- A filled event is read into the filled words. -/
theorem Scan.fill_step (s : Scan) (e : Shell.Event) :
    (ShellFill.fillEvent value e).foldl Scan.step (s.fill value) = (s.step e).fill value := by
  have hopen : fillWord value [none] = [none] := rfl
  cases e with
  | lit p =>
    cases p with
    | char c =>
      have hadd := s.line.fill_add value [some (.char c)]
      simpa [ShellFill.fillEvent, Scan.step, Scan.fill, fillWord, fillPiece] using hadd
    | hole pat =>
      have hadd := s.line.fill_add value [some (.hole pat)]
      have hfold := foldl_lits (value pat) (s.fill value)
      simp only [ShellFill.lits] at hfold
      simp only [ShellFill.fillEvent, hfold]
      simpa [Scan.step, Scan.fill, fillWord, fillPiece] using hadd
  | body p =>
    cases p with
    | char c => rfl
    | hole pat =>
      have hbodies : ∀ v : Str,
          (v.map (fun c => Shell.Event.body (.char c))).foldl Scan.step (s.fill value) = s.fill value := by
        intro v
        induction v with
        | nil => rfl
        | cons c v ih => exact ih
      exact hbodies (value pat)
  | word => simp [ShellFill.fillEvent, Scan.step, Scan.fill, Line.fill_word]
  | active c =>
    have hadd := s.line.fill_add value [none]
    simpa [ShellFill.fillEvent, Scan.step, Scan.fill, hopen] using hadd
  | expand c =>
    have hadd := s.line.fill_add value [none]
    simpa [ShellFill.fillEvent, Scan.step, Scan.fill, hopen] using hadd
  | enter =>
    have hadd := s.line.fill_add value [none]
    simpa [ShellFill.fillEvent, Scan.step, Scan.fill, hopen, Line.start, Line.fill] using hadd
  | fd => simp [ShellFill.fillEvent, Scan.step, Scan.fill, Line.fill]
  | op c =>
    have htarget : (s.fill value).line.target = s.line.target := rfl
    simp only [ShellFill.fillEvent, List.foldl_cons, List.foldl_nil, Scan.step, Scan.fill_finish, htarget]
    by_cases hr : c = '<' ∨ c = '>'
    · simp only [hr, if_true]
      rfl
    · by_cases ht : s.line.target = .next ∧ c ∈ ['&', '|', '-']
      · rw [if_neg hr, if_pos ht, if_neg hr, if_pos ht]
      · rw [if_neg hr, if_neg ht, if_neg hr, if_neg ht]
  | leave =>
    simp only [ShellFill.fillEvent, List.foldl_cons, List.foldl_nil, Scan.step, Scan.fill_finish]
    cases ho : s.outer with
    | nil => simp [Scan.fill, ho]
    | cons l ls => simp [Scan.fill, Scan.finish, ho]
  | blank => rfl
  | hereEnd => rfl

theorem Scan.fill_foldl (es : List Shell.Event) (s : Scan) :
    (ShellFill.fillEvents value es).foldl Scan.step (s.fill value) = (es.foldl Scan.step s).fill value := by
  induction es generalizing s with
  | nil => rfl
  | cons e es ih =>
    have hcons : ShellFill.fillEvents value (e :: es) =
        ShellFill.fillEvent value e ++ ShellFill.fillEvents value es := rfl
    rw [hcons, List.foldl_append, Scan.fill_step, ih]
    rfl

theorem simpleCommands_fill (es : List Shell.Event) :
    simpleCommands (ShellFill.fillEvents value es) = (simpleCommands es).map (List.map (fillWord value)) := by
  have hfold := Scan.fill_foldl value es .start
  have hstart : Scan.start.fill value = Scan.start := rfl
  rw [hstart] at hfold
  simp only [simpleCommands, hfold]
  simp [Scan.fill, Line.fill]

/-! ## Filled scripts -/

/-- The word has no hole. -/
def whole (w : Word) : Bool := w.all (fun p => p = none || (p.any (fun p => p matches .char _)))

/-- The word is the script, whatever its holes become. -/
def steady : Word → Bool
  | [] => true
  | some (.char c) :: w => c ≠ '-' || whole w
  | some (.hole _) :: _ => false
  | none :: _ => true

/-- The arguments of `sed` up to its script are there whatever the holes become. -/
def decidedArgs : List Word → Bool
  | [] => true
  | w :: ws => if isOption w then whole w && decidedArgs ws else steady w

/-- Whether the command is `sed`, and which word is its script, does not depend on the holes. -/
def decided (words : List Word) : Bool :=
  (words.takeWhile leads).all whole &&
    match words.dropWhile leads with
    | [] => true
    | w :: ws => whole w && (textOf w ≠ some (lit "sed") || decidedArgs ws)

variable {value}

theorem fillWord_whole {w : Word} (h : whole w = true) : fillWord value w = w := by
  induction w with
  | nil => rfl
  | cons p w ih =>
    simp only [whole, List.all_cons, Bool.and_eq_true] at h ih
    have hw := ih h.2
    simp only [fillWord] at hw
    simp only [fillWord, List.flatMap_cons, hw]
    cases p with
    | none => rfl
    | some p =>
      cases p with
      | char c => rfl
      | hole pat => simp at h

theorem isOption_steady {w : Word} (h : steady w = true) (ho : isOption w = false) :
    isOption (fillWord value w) = false := by
  cases w with
  | nil => rfl
  | cons p w =>
    cases p with
    | none => rfl
    | some p =>
      cases p with
      | hole pat => simp [steady] at h
      | char c =>
        rw [fillWord_char]
        by_cases hc : c = '-'
        · have hw : whole w = true := by simpa [steady, hc] using h
          rw [fillWord_whole hw]
          exact ho
        · cases fillWord value w with
          | nil => rfl
          | cons q qs => simpa [isOption] using hc

theorem find_script {ws : List Word} (h : decidedArgs ws = true) :
    (ws.map (fillWord value)).find? (fun w => !isOption w) =
      (ws.find? (fun w => !isOption w)).map (fillWord value) := by
  induction ws with
  | nil => rfl
  | cons w ws ih =>
    rw [decidedArgs] at h
    cases ho : isOption w with
    | true =>
      simp only [ho, if_true, Bool.and_eq_true] at h
      simp [ho, fillWord_whole h.1, ih h.2]
    | false =>
      simp only [ho, Bool.false_eq_true, if_false] at h
      simp [ho, isOption_steady h ho]

theorem dropWhile_leads {ws : List Word} (h : (ws.takeWhile leads).all whole = true)
    (hw : ∀ w vs, ws.dropWhile leads = w :: vs → whole w = true) :
    (ws.map (fillWord value)).dropWhile leads = (ws.dropWhile leads).map (fillWord value) := by
  induction ws with
  | nil => rfl
  | cons w ws ih =>
    cases hl : leads w with
    | true =>
      simp only [List.takeWhile_cons, hl, if_true, List.all_cons, Bool.and_eq_true] at h
      simp only [List.dropWhile_cons, hl, if_true] at hw
      simp [hl, fillWord_whole h.1, ih h.2 hw]
    | false =>
      have hwhole := hw w ws (by simp [hl])
      simp [hl, fillWord_whole hwhole]

theorem scriptOf_fill {words : List Word} (h : decided words = true) :
    scriptOf (words.map (fillWord value)) = (scriptOf words).map (fillWord value) := by
  simp only [decided, Bool.and_eq_true] at h
  obtain ⟨hleads, hrest⟩ := h
  have hwhole : ∀ w vs, words.dropWhile leads = w :: vs → whole w = true := by
    intro w vs heq
    simp only [heq, Bool.and_eq_true] at hrest
    exact hrest.1
  rw [scriptOf, dropWhile_leads hleads hwhole, scriptOf]
  cases hd : words.dropWhile leads with
  | nil => rfl
  | cons w ws =>
    simp only [hd, Bool.and_eq_true, Bool.or_eq_true, decide_eq_true_eq] at hrest
    simp only [List.map_cons, fillWord_whole hrest.1]
    by_cases hsed : textOf w = some (lit "sed")
    · have hargs : decidedArgs ws = true := by simpa [hsed] using hrest.2
      simp only [hsed, if_true]
      exact find_script hargs
    · simp [hsed]

theorem piecesOf_fill (w : Word) : piecesOf (fillWord value w) = (piecesOf w).map (ShellFill.fillPieces value) := by
  induction w with
  | nil => rfl
  | cons p w ih =>
    cases p with
    | none => rfl
    | some p =>
      cases p with
      | char c =>
        rw [fillWord_char, piecesOf, ih, piecesOf]
        cases piecesOf w <;> rfl
      | hole pat =>
        have hchars : ∀ v : Str, ∀ w' : Word,
            piecesOf (v.map (fun c => some (Piece.char c)) ++ w') = (piecesOf w').map (v.map .char ++ ·) := by
          intro v w'
          induction v with
          | nil => simp
          | cons c v ihv =>
            simp only [List.map_cons, List.cons_append, piecesOf, ihv]
            cases piecesOf w' <;> rfl
        have hfill : fillWord value (some (.hole pat) :: w) =
            (value pat).map (fun c => some (Piece.char c)) ++ fillWord value w := rfl
        rw [hfill, hchars, ih, piecesOf]
        cases piecesOf w <;> rfl

theorem scripts_fill {es : List Shell.Event} (h : (simpleCommands es).all decided = true) :
    scripts (ShellFill.fillEvents value es) = (scripts es).map (ShellFill.fillPieces value) := by
  rw [scripts, simpleCommands_fill, scripts]
  revert h
  generalize simpleCommands es = commands
  intro h
  induction commands with
  | nil => rfl
  | cons words commands ih =>
    simp only [List.all_cons, Bool.and_eq_true] at h
    have hscript : (scriptOf (words.map (fillWord value))).bind piecesOf =
        ((scriptOf words).bind piecesOf).map (ShellFill.fillPieces value) := by
      rw [scriptOf_fill h.1]
      cases scriptOf words with
      | none => rfl
      | some w => exact piecesOf_fill w
    simp only [List.map_cons, List.filterMap_cons, hscript]
    cases (scriptOf words).bind piecesOf with
    | none => exact ih h.2
    | some script => simp [ih h.2]

variable (value) in
/-- The scripts of a command do not depend on its holes, and every value keeps to its
text or part of a script. -/
def scriptsFit (es : List Shell.Event) : Bool :=
  (simpleCommands es).all decided && (scripts es).all (fits value .command)

/-- Parameters stay data: only the literal characters of the scripts depend on them. -/
theorem structures_fill {es : List Shell.Event} (h : scriptsFit value es = true) :
    (scripts (ShellFill.fillEvents value es)).map structureOf =
      ((scripts es).map structureOf).map (fun s => (fillEvents value s.1, s.2)) := by
  simp only [scriptsFit, Bool.and_eq_true] at h
  rw [scripts_fill h.1, List.map_map, List.map_map]
  apply List.map_congr_left
  intro script hmem
  exact structureOf_fill value script (List.all_eq_true.mp h.2 script hmem)

end

end Sed
