import Ngcorion.Shell

/-!
# Filling the holes of a shell command

A value that is put into a hole stays data when the text that stands for it
reads as its literal characters at the place of the hole. When that is so for
every hole, the structure of the filled command is the structure of the
template, with each hole replaced by the characters of its value.
-/
namespace ShellFill

open Text Placeholder Shell

/-! ## Two readings of one text -/

/-- The control of a reading of the template and of a reading of the filled text.
A word with a hole may have become a number, and a line with a hole is not yet known
to differ from the delimiter. -/
structure Related (t f : Ctrl) : Prop where
  mode : f.mode = t.mode
  frames : f.frames = t.frames
  redir : f.redir = t.redir
  pending : f.pending = t.pending
  word : f.word = t.word ∨ t.word = .holed ∧ (f.word = .digits ∨ f.word = .word)
  line : f.line = t.line ∨ t.line = .holed ∧ f.line ≠ .upTo []

def Matches (r s : Ctrl × List Event) : Prop := Related r.1 s.1 ∧ s.2 = r.2

theorem matches_ite {p : Prop} [Decidable p] {r s r' s' : Ctrl × List Event} (h : p → Matches r s)
    (h' : ¬ p → Matches r' s') : Matches (if p then r else r') (if p then s else s') := by
  by_cases hp : p
  · simpa only [hp, if_true] using h hp
  · simpa only [hp, if_false] using h' hp

theorem Related.refl (c : Ctrl) : Related c c := ⟨rfl, rfl, rfl, rfl, Or.inl rfl, Or.inl rfl⟩

/-- What may follow a hole: no redirection in the same word, and in a
here-document only the end of the line. -/
def nextOk (t : Ctrl) (x : Char) : Bool :=
  (t.word ≠ .holed || (x ≠ '<' && x ≠ '>')) && (t.line ≠ .holed || t.mode ≠ .body || x = '\n')

section
variable {t f : Ctrl} {x : Char}

theorem Related.fresh (h : Related t f) : f.word = .fresh ↔ t.word = .fresh := by
  rcases h.word with hw | ⟨ht, hw | hw⟩ <;> simp [*]

theorem Related.tilde (h : Related t f) : f.word = .tilde ↔ t.word = .tilde := by
  rcases h.word with hw | ⟨ht, hw | hw⟩ <;> simp [*]

theorem Related.begin (h : Related t f) : f.begin = t.begin := by
  simp only [Ctrl.begin, h.fresh]

theorem Related.next (h : Related t f) (x : Char) :
    f.word.next x = t.word.next x ∨ t.word.next x = .holed ∧ (f.word.next x = .digits ∨ f.word.next x = .word) := by
  rcases h.word with hw | ⟨ht, hw | hw⟩
  · simp [hw]
  · by_cases hd : x.isDigit = true <;> simp [ht, hw, Word.next, hd]
  · simp [ht, hw, Word.next]

theorem Related.close (h : Related t f) : Related t.close f.close := by
  unfold Ctrl.close
  rw [h.redir]
  split
  · exact ⟨h.mode, h.frames, rfl, by simp [h.pending], h.word, h.line⟩
  · exact h
  · exact ⟨h.mode, h.frames, rfl, h.pending, h.word, h.line⟩

theorem Related.newline (h : Related t f) : Matches t.newline f.newline := by
  unfold Ctrl.newline
  rw [h.close.pending]
  split
  · exact ⟨⟨rfl, h.close.frames, rfl, h.close.pending, Or.inl rfl, h.close.line⟩, rfl⟩
  · exact ⟨⟨rfl, h.frames, rfl, rfl, Or.inl rfl, Or.inl rfl⟩, rfl⟩

theorem Related.redirs (h : Related t f) (r : Redir) : Related { t with redir := r } { f with redir := r } :=
  ⟨h.mode, h.frames, rfl, h.pending, h.word, h.line⟩

theorem Related.modes (h : Related t f) (m : Mode) : Related { t with mode := m } { f with mode := m } :=
  ⟨rfl, h.frames, h.redir, h.pending, h.word, h.line⟩

theorem Related.words (h : Related t f) (w : Word) : Related { t with word := w } { f with word := w } :=
  ⟨h.mode, h.frames, h.redir, h.pending, Or.inl rfl, h.line⟩

theorem Related.framed (h : Related t f) (fs : List Frame) : Related { t with frames := fs } { f with frames := fs } :=
  ⟨h.mode, rfl, h.redir, h.pending, h.word, h.line⟩

theorem Related.operator (h : Related t f) (hx : t.word = .holed → x ≠ '<' ∧ x ≠ '>') :
    Matches (operator x t) (operator x f) := by
  have hclose := h.close
  have hfd : ((x = '<' ∨ x = '>') ∧ f.word = .digits) ↔ ((x = '<' ∨ x = '>') ∧ t.word = .digits) := by
    rcases h.word with hw | ⟨ht, _⟩
    · rw [hw]
    · have hne := hx ht
      simp [hne]
  simp only [Shell.operator, hfd, h.frames, h.redir]
  refine matches_ite (fun _ => h.newline) (fun _ => ?_)
  refine matches_ite (fun _ => ⟨(hclose.words .fresh).framed _, rfl⟩) (fun _ => ?_)
  refine matches_ite (fun _ => ?_) (fun _ => matches_ite (fun _ => ⟨(hclose.words .fresh).redirs _, rfl⟩)
    (fun _ => ⟨hclose.words .fresh, rfl⟩))
  cases t.frames with
  | nil => exact ⟨hclose.words .fresh, rfl⟩
  | cons fr fs =>
    cases fr with
    | subst => exact ⟨(hclose.words .word).framed fs, rfl⟩
    | paren => exact ⟨(hclose.words .fresh).framed fs, rfl⟩
    | quoted => exact ⟨hclose.words .fresh, rfl⟩

theorem Related.unquotedStep (h : Related t f) (hx : t.word = .holed → x ≠ '<' ∧ x ≠ '>') :
    Matches (unquotedStep x t) (unquotedStep x f) := by
  have hword := h.words .word
  simp only [Shell.unquotedStep, h.begin, h.fresh, h.tilde, h.redir, h.frames]
  refine matches_ite (fun _ => ⟨h.close.words .fresh, rfl⟩) (fun _ => ?_)
  refine matches_ite (fun _ => h.operator hx) (fun _ => ?_)
  refine matches_ite (fun _ => ⟨((hword.redirs t.redir.quote).framed t.frames).modes .single, rfl⟩) (fun _ => ?_)
  refine matches_ite (fun _ => ⟨(hword.redirs t.redir.quote).framed (.quoted :: t.frames), rfl⟩) (fun _ => ?_)
  refine matches_ite (fun _ => ⟨((h.redirs t.redir).framed t.frames).modes .escaped, rfl⟩) (fun _ => ?_)
  refine matches_ite (fun _ => ⟨(hword.redirs (t.redir.add x)).framed t.frames, rfl⟩) (fun _ => ?_)
  refine matches_ite (fun _ => ⟨((hword.redirs t.redir).framed t.frames).modes .dollar, rfl⟩) (fun _ => ?_)
  refine matches_ite (fun _ => ⟨((hword.redirs t.redir).framed t.frames).modes (.tick false), rfl⟩) (fun _ => ?_)
  refine matches_ite (fun _ => ⟨((h.redirs t.redir).framed t.frames).modes .comment, rfl⟩) (fun _ => ?_)
  refine matches_ite (fun _ => ⟨(hword.redirs t.redir).framed t.frames, rfl⟩) (fun _ => ?_)
  refine matches_ite (fun _ => ⟨((h.words .tilde).redirs t.redir).framed t.frames, rfl⟩) (fun _ => ?_)
  refine matches_ite (fun _ => ⟨h, rfl⟩) (fun _ => ?_)
  exact ⟨⟨h.mode, rfl, rfl, h.pending, h.next x, h.line⟩, rfl⟩

theorem Related.plainStep (h : Related t f) (hx : t.word = .holed → x ≠ '<' ∧ x ≠ '>') :
    Matches (plainStep x t) (plainStep x f) := by
  simp only [Shell.plainStep, h.redir]
  split_ifs
  · exact ⟨h.redirs _, rfl⟩
  · exact (h.redirs (t.redir.settle x)).unquotedStep hx

theorem Related.literal (h : Related t f) (x : Char) : Matches (literal x t) (literal x f) := by
  simp only [Shell.literal, h.redir]
  exact ⟨h.redirs _, rfl⟩

theorem Related.inQuotes (h : Related t f) : inQuotes f = inQuotes t := by
  simp only [Shell.inQuotes, h.frames]

theorem Related.quotedStep (h : Related t f) (x : Char) : Matches (quotedStep x t) (quotedStep x f) := by
  simp only [Shell.quotedStep, h.redir, h.frames]
  have hsame := (h.redirs t.redir).framed t.frames
  refine matches_ite (fun _ => ⟨(h.redirs t.redir).framed t.frames.tail, rfl⟩) (fun _ => ?_)
  refine matches_ite (fun _ => ⟨hsame.modes .escaped, rfl⟩) (fun _ => ?_)
  refine matches_ite (fun _ => h.literal x) (fun _ => ?_)
  refine matches_ite (fun _ => ⟨hsame.modes .dollar, rfl⟩) (fun _ => ?_)
  refine matches_ite (fun _ => ⟨hsame.modes (.tick false), rfl⟩) (fun _ => h.literal x)

theorem Related.baseStep (h : Related t f) (hx : t.word = .holed → x ≠ '<' ∧ x ≠ '>') :
    Matches (baseStep x t) (baseStep x f) := by
  simp only [Shell.baseStep, h.inQuotes]
  exact matches_ite (fun _ => h.quotedStep x) (fun _ => h.plainStep hx)

theorem Related.escapedStep (h : Related t f) (x : Char) : Matches (escapedStep x t) (escapedStep x f) := by
  simp only [Shell.escapedStep, h.inQuotes, h.begin, h.redir]
  refine matches_ite (fun _ => ⟨h, rfl⟩) (fun _ => matches_ite (fun _ => matches_ite ?_ ?_) (fun _ => ?_))
  · exact fun _ => h.literal x
  · exact fun _ => ⟨((h.literal '\\').1.literal x).1, rfl⟩
  · exact ⟨(h.words .word).redirs (t.redir.quote.add x), rfl⟩

theorem Related.dollarStep (h : Related t f) (hx : t.word = .holed → x ≠ '<' ∧ x ≠ '>') :
    Matches (dollarStep x t) (dollarStep x f) := by
  simp only [Shell.dollarStep]
  refine matches_ite (fun _ => ⟨h.modes .dollarParen, rfl⟩) (fun _ => ?_)
  refine matches_ite (fun _ => ⟨h.modes (.param 1 .none), rfl⟩) (fun _ => ?_)
  refine matches_ite (fun _ => ⟨h.modes .name, rfl⟩) (fun _ => ?_)
  refine matches_ite (fun _ => ⟨h.modes .base, rfl⟩) (fun _ => ?_)
  have hbase := (h.modes .base).baseStep hx
  exact ⟨hbase.1, by rw [hbase.2]⟩

theorem Related.dollarParenStep (h : Related t f) (x : Char) :
    Matches (dollarParenStep x t) (dollarParenStep x f) := by
  simp only [Shell.dollarParenStep, h.frames]
  refine matches_ite (fun _ => ⟨(h.framed t.frames).modes (.arith 2), rfl⟩) (fun _ => ?_)
  have hinside := (((h.modes .base).words .fresh).framed (.subst :: t.frames)).plainStep (x := x) (by simp)
  exact ⟨hinside.1, by rw [hinside.2]⟩

theorem Related.lines (h : Related t f) (l : Line) : Related { t with line := l } { f with line := l } :=
  ⟨h.mode, h.frames, h.redir, h.pending, h.word, Or.inl rfl⟩

theorem Related.pendings (h : Related t f) (hs : List Here) : Related { t with pending := hs } { f with pending := hs } :=
  ⟨h.mode, h.frames, h.redir, rfl, h.word, h.line⟩

theorem Related.bodyStep (h : Related t f) (hx : t.line = .holed → x = '\n') : Matches (bodyStep x t) (bodyStep x f) := by
  have hend : f.line = .upTo [] ↔ t.line = .upTo [] := by
    rcases h.line with hline | ⟨ht, hline⟩ <;> simp [*]
  have hline : x ≠ '\n' → f.line = t.line := by
    intro hn
    rcases h.line with hline | ⟨ht, _⟩
    · exact hline
    · exact absurd (hx ht) hn
  simp only [Shell.bodyStep, h.pending, hend]
  cases t.pending with
  | nil => exact ⟨(h.pendings []).modes .base, rfl⟩
  | cons here rest =>
    refine matches_ite (fun _ => matches_ite ?_ ?_) (fun hn => ?_)
    · exact fun _ => ⟨((h.lines _).pendings rest).modes _, rfl⟩
    · exact fun _ => ⟨(h.lines (.upTo here.delim)).pendings _, rfl⟩
    · simp only [hline hn]
      exact ⟨(h.lines (t.line.next here x)).pendings _, rfl⟩

/-- Both readings take the same step on a character of the template. -/
theorem Related.stepChar (h : Related t f) (hx : nextOk t x = true) : Matches (stepChar x t) (stepChar x f) := by
  have hword : t.word = .holed → x ≠ '<' ∧ x ≠ '>' := by
    intro hw
    simpa [nextOk, hw] using (Bool.and_eq_true_iff.mp hx).1
  simp only [Shell.stepChar, h.mode]
  cases hm : t.mode with
  | base => exact h.baseStep hword
  | escaped => exact (h.modes .base).escapedStep x
  | single => exact matches_ite (fun _ => ⟨h.modes .base, rfl⟩) (fun _ => h.literal x)
  | comment => exact matches_ite (fun _ => h.newline) (fun _ => ⟨h, rfl⟩)
  | body =>
    apply h.bodyStep
    intro hl
    simpa [nextOk, hl, hm] using (Bool.and_eq_true_iff.mp hx).2
  | dollar => exact h.dollarStep hword
  | dollarParen => exact h.dollarParenStep x
  | name => exact matches_ite (fun _ => ⟨h, rfl⟩) (fun _ => (h.modes .base).baseStep hword)
  | tick escaped => exact ⟨h.modes _, rfl⟩
  | param depth quote => exact ⟨h.modes _, rfl⟩
  | arith depth => exact ⟨h.modes _, rfl⟩

end

/-! ## The values in the structure -/

/-- A hole becomes the characters of its value. -/
def fillEvent (value : Str → Str) : Event → List Event
  | .lit (.hole pat) => (value pat).map (fun c => .lit (.char c))
  | .body (.hole pat) => (value pat).map (fun c => .body (.char c))
  | e => [e]

def fillEvents (value : Str → Str) (es : List Event) : List Event := es.flatMap (fillEvent value)

@[simp] theorem fillEvents_nil (value : Str → Str) : fillEvents value [] = [] := rfl

@[simp] theorem fillEvents_append (value : Str → Str) (es es' : List Event) :
    fillEvents value (es ++ es') = fillEvents value es ++ fillEvents value es' := by
  simp [fillEvents]

/-- Events without a hole. -/
def Solid (es : List Event) : Prop := ∀ value, fillEvents value es = es

theorem Solid.append {es es' : List Event} (h : Solid es) (h' : Solid es') : Solid (es ++ es') := by
  intro value
  rw [fillEvents_append, h value, h' value]

theorem Solid.cons {e : Event} {es : List Event} (h : Solid [e]) (h' : Solid es) : Solid (e :: es) := h.append h'

theorem solid_nil : Solid [] := fun _ => rfl

theorem solid_lit (x : Char) : Solid [.lit (.char x)] := fun _ => rfl

theorem solid_begin (c : Ctrl) : Solid c.begin := by
  intro value
  simp only [Ctrl.begin]
  split <;> rfl

theorem solid_ite {p : Prop} [Decidable p] {r r' : Ctrl × List Event} (h : Solid r.2) (h' : Solid r'.2) :
    Solid (if p then r else r').2 := by
  by_cases hp : p
  · simpa only [hp, if_true] using h
  · simpa only [hp, if_false] using h'

theorem solid_newline (c : Ctrl) : Solid c.newline.2 := by
  intro value
  simp only [Ctrl.newline]
  split <;> rfl

theorem solid_operator (x : Char) (c : Ctrl) : Solid (operator x c).2 := by
  have hfd : Solid ((if (x = '<' ∨ x = '>') ∧ c.word = .digits then [Event.fd] else []) ++ [Event.op x]) := by
    intro value
    split <;> rfl
  refine solid_ite (solid_newline c) (solid_ite (fun _ => rfl) (solid_ite ?_ (solid_ite hfd hfd)))
  intro value
  split <;> rfl

theorem solid_unquotedStep (x : Char) (c : Ctrl) : Solid (unquotedStep x c).2 := by
  have hb := solid_begin c
  refine solid_ite (fun _ => rfl) (solid_ite (solid_operator x c) (solid_ite hb (solid_ite hb (solid_ite solid_nil ?_))))
  refine solid_ite (hb.append (solid_lit x)) (solid_ite hb (solid_ite (hb.append (fun _ => rfl)) ?_))
  refine solid_ite solid_nil (solid_ite (hb.append (fun _ => rfl)) (solid_ite (fun _ => rfl) ?_))
  exact solid_ite (fun _ => rfl) (hb.append (solid_lit x))

theorem solid_plainStep (x : Char) (c : Ctrl) : Solid (plainStep x c).2 :=
  solid_ite (fun _ => rfl) (solid_unquotedStep x _)

theorem solid_quotedStep (x : Char) (c : Ctrl) : Solid (quotedStep x c).2 :=
  solid_ite solid_nil (solid_ite solid_nil (solid_ite (solid_lit x)
    (solid_ite solid_nil (solid_ite (fun _ => rfl) (solid_lit x)))))

theorem solid_baseStep (x : Char) (c : Ctrl) : Solid (baseStep x c).2 :=
  solid_ite (solid_quotedStep x c) (solid_plainStep x c)

theorem solid_escapedStep (x : Char) (c : Ctrl) : Solid (escapedStep x c).2 :=
  solid_ite solid_nil (solid_ite (solid_ite (solid_lit x) (fun _ => rfl)) ((solid_begin c).append (solid_lit x)))

theorem solid_dollarStep (x : Char) (c : Ctrl) : Solid (dollarStep x c).2 :=
  solid_ite solid_nil (solid_ite (fun _ => rfl) (solid_ite (fun _ => rfl) (solid_ite (fun _ => rfl)
    (Solid.cons (solid_lit '$') (solid_baseStep x _)))))

theorem solid_dollarParenStep (x : Char) (c : Ctrl) : Solid (dollarParenStep x c).2 :=
  solid_ite (fun _ => rfl) (Solid.cons (fun _ => rfl) (solid_plainStep x _))

theorem solid_bodyStep (x : Char) (c : Ctrl) : Solid (bodyStep x c).2 := by
  simp only [bodyStep]
  cases c.pending with
  | nil => exact solid_nil
  | cons h hs =>
    refine solid_ite (solid_ite (fun _ => rfl) (fun _ => rfl)) ?_
    intro value
    by_cases hq : (h.quoted || decide (x ∉ ['$', backquote, '\\'])) = true
    · simp only [hq, if_true]
      rfl
    · simp only [hq]
      rfl

/-- A character of the text is never read as a hole. -/
theorem solid_stepChar (x : Char) (c : Ctrl) : Solid (stepChar x c).2 := by
  simp only [stepChar]
  cases c.mode with
  | base => exact solid_baseStep x c
  | escaped => exact solid_escapedStep x _
  | single => exact solid_ite solid_nil (solid_lit x)
  | comment => exact solid_ite (solid_newline c) solid_nil
  | body => exact solid_bodyStep x c
  | dollar => exact solid_dollarStep x c
  | dollarParen => exact solid_dollarParenStep x c
  | name => exact solid_ite (fun _ => rfl) (solid_baseStep x _)
  | tick escaped => exact fun _ => rfl
  | param depth quote => exact fun _ => rfl
  | arith depth => exact fun _ => rfl

/-! ## Filling -/

/-- The text in which every hole is replaced by the text that stands for its value. -/
def fillPieces (text : Str → Str) : List Piece → List Piece
  | [] => []
  | .char c :: ps => .char c :: fillPieces text ps
  | .hole pat :: ps => (text pat).map .char ++ fillPieces text ps

theorem fillPieces_eq_fill (pairs : List (Str × Str)) (ps : List Piece) :
    fillPieces (fun pat => (Dict.get pairs pat).getD pat) ps = (fill pairs ps).map .char := by
  induction ps with
  | nil => rfl
  | cons p ps ih => cases p <;> simp [fillPieces, fill, ih]

/-- At the place of a hole, a text reads as the characters of a value. -/
def Stands (t : Ctrl) (pat text value : Str) : Prop :=
  ∀ f, Related t f → Related (stepHole pat t).1 (run f (text.map .char)).1 ∧
    (run f (text.map .char)).2 = fillEvents (fun _ => value) (stepHole pat t).2

/-- Every text stands for its value, and what follows a hole keeps it apart. -/
def Fits (text value : Str → Str) : Ctrl → List Piece → Prop
  | _, [] => True
  | t, .char x :: ps => nextOk t x = true ∧ Fits text value (stepChar x t).1 ps
  | t, .hole pat :: ps => Stands t pat (text pat) (value pat) ∧ Fits text value (stepHole pat t).1 ps

theorem run_append (c : Ctrl) (ps qs : List Piece) :
    run c (ps ++ qs) = ((run (run c ps).1 qs).1, (run c ps).2 ++ (run (run c ps).1 qs).2) := by
  induction ps generalizing c with
  | nil => rfl
  | cons p ps ih => simp only [List.cons_append, run, ih, List.append_assoc]

theorem fillEvents_stepHole (value : Str → Str) (pat : Str) (t : Ctrl) :
    fillEvents value (stepHole pat t).2 = fillEvents (fun _ => value pat) (stepHole pat t).2 := by
  have hb := solid_begin t
  simp only [stepHole]
  cases t.mode with
  | base =>
    by_cases hq : inQuotes t = true
    · simp only [hq, if_true]
      rfl
    · simp only [hq, Bool.false_eq_true, if_false, fillEvents_append, hb value, hb (fun _ => value pat)]
      rfl
  | _ => rfl

/-- The structure of the filled text is the template's, with the values in it. -/
theorem run_fill (text value : Str → Str) (ps : List Piece) (t : Ctrl) (h : Fits text value t ps) (f : Ctrl)
    (hr : Related t f) : Related (run t ps).1 (run f (fillPieces text ps)).1 ∧
      (run f (fillPieces text ps)).2 = fillEvents value (run t ps).2 := by
  induction ps generalizing t f with
  | nil => exact ⟨hr, rfl⟩
  | cons p ps ih =>
    cases p with
    | char x =>
      obtain ⟨hx, hrest⟩ := h
      obtain ⟨hstep, hevents⟩ := hr.stepChar hx
      obtain ⟨hlater, hlevents⟩ := ih _ hrest _ hstep
      refine ⟨hlater, ?_⟩
      simp only [run, fillPieces, step, fillEvents_append, hevents, hlevents, solid_stepChar x t value]
    | hole pat =>
      obtain ⟨hstands, hrest⟩ := h
      obtain ⟨hstep, hevents⟩ := hstands f hr
      obtain ⟨hlater, hlevents⟩ := ih _ hrest _ hstep
      rw [fillPieces, run_append]
      refine ⟨hlater, ?_⟩
      simp only [run, step, fillEvents_append, hevents, hlevents, fillEvents_stepHole value pat t]

theorem Related.closed {t f : Ctrl} (h : Related t f) : closed f = closed t := by
  have hend : f.line = .upTo [] ↔ t.line = .upTo [] := by
    rcases h.line with hline | ⟨ht, hline⟩ <;> simp [*]
  simp only [Shell.closed, h.mode, h.frames, h.redir, h.pending, hend]

/-- Parameters stay data: only the literal characters of the structure depend on them. -/
theorem structureOf_fill (text value : Str → Str) (ps : List Piece) (h : Fits text value start ps) :
    structureOf (fillPieces text ps) = (fillEvents value (structureOf ps).1, (structureOf ps).2) := by
  obtain ⟨hctrl, hevents⟩ := run_fill text value ps start h start (Related.refl start)
  simp only [structureOf, hevents, hctrl.closed]

/-! ## Bare words -/

/-- Unquoted text where a word is read or may begin. -/
def bare (c : Ctrl) : Bool := c.mode = .base && !inQuotes c && c.redir = .none && c.word ≠ .tilde

/-- The characters that mean nothing to the shell in unquoted text. -/
def isSafe (c : Char) : Bool := isNameChar c || c ∈ ['@', '%', '+', '=', ':', ',', '.', '/', '-']

def lits (v : Str) : List Event := v.map (fun c => .lit (.char c))

theorem fillEvents_hole (v pat : Str) : fillEvents (fun _ => v) [.lit (.hole pat)] = lits v := by
  simp [fillEvents, fillEvent, lits]

structure Bare (c : Ctrl) : Prop where
  mode : c.mode = .base
  unquoted : inQuotes c = false
  redir : c.redir = .none
  word : c.word ≠ .tilde

theorem bare_iff (c : Ctrl) : bare c = true ↔ Bare c := by
  simp only [bare, Bool.and_eq_true, decide_eq_true_eq, Bool.not_eq_true']
  exact ⟨fun ⟨⟨⟨hm, hq⟩, hr⟩, hw⟩ => ⟨hm, hq, hr, hw⟩, fun h => ⟨⟨⟨h.mode, h.unquoted⟩, h.redir⟩, h.word⟩⟩

theorem Bare.related {t f : Ctrl} (h : Bare t) (hr : Related t f) : Bare f :=
  ⟨hr.mode.trans h.mode, hr.inQuotes.trans h.unquoted, hr.redir.trans h.redir, fun hw => h.word (hr.tilde.mp hw)⟩

theorem Bare.stepHole {t : Ctrl} (h : Bare t) (pat : Str) :
    Shell.stepHole pat t = ({ t with word := .holed }, t.begin ++ [Event.lit (.hole pat)]) := by
  simp [Shell.stepHole, h.mode, h.unquoted]

theorem Bare.stepChar {f : Ctrl} (h : Bare f) (x : Char) : Shell.stepChar x f = unquotedStep x f := by
  obtain ⟨mode, frames, w, redir, pending, line⟩ := f
  obtain ⟨hm, hq, hr, -⟩ := h
  simp only at hm hr
  subst hm hr
  simp [Shell.stepChar, baseStep, hq, plainStep, Redir.settle]

theorem Bare.safe {f : Ctrl} (h : Bare f) {x : Char} (hx : isSafe x = true) :
    Shell.stepChar x f = ({ f with word := f.word.next x }, f.begin ++ [Event.lit (.char x)]) := by
  have hne : ∀ y, isSafe y = false → x ≠ y := by
    rintro y hy rfl
    simp [hx] at hy
  have hblank : isBlank x = false := by
    simp [isBlank, hne ' ' (by decide), hne '\t' (by decide)]
  have hop : isOperator x = false := by
    simp [isOperator, hne '|' (by decide), hne '&' (by decide), hne ';' (by decide), hne '(' (by decide),
      hne ')' (by decide), hne '<' (by decide), hne '>' (by decide), hne '\n' (by decide)]
  rw [h.stepChar x]
  simp [unquotedStep, hblank, hop, hne '\'' (by decide), hne '"' (by decide), hne '\\' (by decide), h.redir,
    Redir.isDelim, hne '$' (by decide), hne backquote (by decide), hne '#' (by decide), hne '*' (by decide),
    hne '?' (by decide), hne '[' (by decide), hne '~' (by decide), h.word]

/-- A text of safe characters is a part of the word. -/
theorem Bare.run_safe (v : Str) (hv : v ≠ []) (hs : ∀ x ∈ v, isSafe x = true) {f : Ctrl} (h : Bare f) :
    ∃ w, (w = .digits ∨ w = .word ∨ f.word = .holed ∧ w = .holed) ∧
      run f (v.map .char) = ({ f with word := w }, f.begin ++ lits v) := by
  induction v generalizing f with
  | nil => exact absurd rfl hv
  | cons x v ih =>
    have hstep := h.safe (hs x (by simp))
    have hnext : f.word.next x = .digits ∨ f.word.next x = .word ∨ f.word = .holed ∧ f.word.next x = .holed := by
      cases hw : f.word with
      | fresh => by_cases hd : x.isDigit = true <;> simp [Word.next, hd]
      | digits => by_cases hd : x.isDigit = true <;> simp [Word.next, hd]
      | tilde => exact absurd hw h.word
      | word => simp [Word.next]
      | holed => simp [Word.next]
    by_cases hnil : v = []
    · subst hnil
      exact ⟨_, hnext, by simp [run, step, hstep, lits]⟩
    · have hbare : Bare { f with word := f.word.next x } :=
        ⟨h.mode, h.unquoted, h.redir, by rcases hnext with hn | hn | ⟨-, hn⟩ <;> simp [hn]⟩
      obtain ⟨w, hw, hrun⟩ := ih hnil (fun y hy => hs y (by simp [hy])) hbare
      have hbegin : Ctrl.begin { f with word := f.word.next x } = [] := by
        rcases hnext with hn | hn | ⟨-, hn⟩ <;> simp [Ctrl.begin, hn]
      refine ⟨w, ?_, ?_⟩
      · rcases hw with hw | hw | ⟨hf, hw⟩
        · exact Or.inl hw
        · exact Or.inr (Or.inl hw)
        · rcases hnext with hn | hn | ⟨hf', -⟩
          · simp [hn] at hf
          · simp [hn] at hf
          · exact Or.inr (Or.inr ⟨hf', hw⟩)
      · simp only [List.map_cons, run, step, hstep, hrun, hbegin]
        simp [lits]

theorem Bare.stands {t : Ctrl} (h : Bare t) (pat text value : Str)
    (hrun : ∀ f, Bare f → ∃ w, (w = .digits ∨ w = .word ∨ f.word = .holed ∧ w = .holed) ∧
      run f (text.map .char) = ({ f with word := w }, f.begin ++ lits value)) : Stands t pat text value := by
  intro f hr
  obtain ⟨w, hw, hrun⟩ := hrun f (h.related hr)
  rw [hrun, h.stepHole pat]
  refine ⟨⟨hr.mode, hr.frames, hr.redir, hr.pending, ?_, hr.line⟩, ?_⟩
  · rcases hw with hw | hw | ⟨-, hw⟩
    · exact Or.inr ⟨rfl, Or.inl hw⟩
    · exact Or.inr ⟨rfl, Or.inr hw⟩
    · exact Or.inl hw
  · rw [fillEvents_append, solid_begin t, fillEvents_hole, hr.begin]

theorem stands_safe {t : Ctrl} (h : Bare t) (pat v : Str) (hv : v ≠ []) (hs : ∀ x ∈ v, isSafe x = true) :
    Stands t pat v v :=
  h.stands pat v v (fun _ hf => hf.run_safe v hv hs)

/-! ## Single quotes -/

/-- Inside single quotes, which only unquoted text has. -/
structure Quoted (c : Ctrl) : Prop where
  mode : c.mode = .single
  unquoted : inQuotes c = false
  redir : c.redir = .none
  word : c.word = .word

theorem Quoted.run {c : Ctrl} (h : Quoted c) (v : Str) (hv : '\'' ∉ v) :
    Shell.run c (v.map .char) = (c, lits v) := by
  have hlit : ∀ x, x ≠ '\'' → Shell.stepChar x c = (c, [.lit (.char x)]) := by
    intro x hx
    obtain ⟨mode, frames, w, redir, pending, line⟩ := c
    obtain ⟨hm, -, hr, -⟩ := h
    simp only at hm hr
    subst hm hr
    simp [Shell.stepChar, hx, literal, Redir.add]
  induction v with
  | nil => rfl
  | cons x v ih =>
    have hx := hlit x (fun hx => hv (by simp [hx]))
    have hrest := ih (fun hx => hv (by simp [hx]))
    simp only [List.map_cons, Shell.run, step, hx, hrest]
    simp [lits]

/-- Leave the quotes for an apostrophe in double quotes, as `shlex.quote` does. -/
def escapeDouble (x : Char) : Str := if x = '\'' then ['\'', '"', '\'', '"', '\''] else [x]

/-- Leave the quotes for an apostrophe after a backslash. -/
def escapeBackslash (x : Char) : Str := if x = '\'' then ['\'', '\\', '\'', '\''] else [x]

theorem Quoted.run_escapeDouble {c : Ctrl} (h : Quoted c) (x : Char) :
    Shell.run c ((escapeDouble x).map .char) = (c, [.lit (.char x)]) := by
  by_cases hx : x = '\''
  · obtain ⟨mode, frames, w, redir, pending, line⟩ := c
    obtain ⟨hm, hq, hr, hw⟩ := h
    simp only at hm hr hw
    subst hm hr hw hx
    have hq' : frames.head? ≠ some .quoted := by simpa [inQuotes] using hq
    simp [escapeDouble, Shell.run, step, Shell.stepChar, baseStep, inQuotes, hq', plainStep, unquotedStep, isBlank,
      isOperator, Redir.settle, Redir.quote, Redir.add, Redir.isDelim, Ctrl.begin, quotedStep, literal, backquote]
  · have hrun := h.run [x] (by simpa using Ne.symm hx)
    simpa [escapeDouble, hx, lits] using hrun

theorem Quoted.run_escapeBackslash {c : Ctrl} (h : Quoted c) (x : Char) :
    Shell.run c ((escapeBackslash x).map .char) = (c, [.lit (.char x)]) := by
  by_cases hx : x = '\''
  · obtain ⟨mode, frames, w, redir, pending, line⟩ := c
    obtain ⟨hm, hq, hr, hw⟩ := h
    simp only at hm hr hw
    subst hm hr hw hx
    have hq' : frames.head? ≠ some .quoted := by simpa [inQuotes] using hq
    simp [escapeBackslash, Shell.run, step, Shell.stepChar, baseStep, inQuotes, hq', plainStep, unquotedStep, isBlank,
      isOperator, Redir.settle, Redir.quote, Redir.add, Ctrl.begin, escapedStep]
  · have hrun := h.run [x] (by simpa using Ne.symm hx)
    simpa [escapeBackslash, hx, lits] using hrun

/-- A value whose apostrophes are escaped reads as its characters inside single quotes. -/
theorem Quoted.run_escaped {c : Ctrl} (escape : Char → Str)
    (he : ∀ x, Shell.run c ((escape x).map .char) = (c, [.lit (.char x)])) (v : Str) :
    Shell.run c ((v.flatMap escape).map .char) = (c, lits v) := by
  induction v with
  | nil => rfl
  | cons x v ih =>
    rw [List.flatMap_cons, List.map_append, run_append, he x, ih]
    simp [lits]

/-- A value in single quotes of its own is a part of the word. -/
theorem Bare.run_quoted (v : Str) {f : Ctrl} (h : Bare f) :
    run f (('\'' :: (v.flatMap escapeDouble ++ ['\''])).map .char) = ({ f with word := .word }, f.begin ++ lits v) := by
  have hopen : Shell.stepChar '\'' f = ({ f with mode := .single, word := .word }, f.begin) := by
    rw [h.stepChar]
    have hr := h.redir
    simp [unquotedStep, isBlank, isOperator, hr, Redir.quote]
  have hin : Quoted { f with mode := .single, word := .word } := ⟨rfl, h.unquoted, h.redir, rfl⟩
  have hclose : Shell.stepChar '\'' { f with mode := .single, word := .word } = ({ f with word := .word }, []) := by
    simp [Shell.stepChar, h.mode]
  rw [List.map_cons, run, step, hopen]
  simp only [List.map_append, run_append, Quoted.run_escaped escapeDouble hin.run_escapeDouble v]
  simp [run, step, hclose]

theorem stands_quoted {t : Ctrl} (h : Bare t) (pat v : Str) :
    Stands t pat ('\'' :: (v.flatMap escapeDouble ++ ['\''])) v :=
  h.stands pat _ v (fun _ hf => ⟨.word, Or.inr (Or.inl rfl), hf.run_quoted v⟩)

theorem Quoted.related {t f : Ctrl} (h : Quoted t) (hr : Related t f) : Quoted f := by
  refine ⟨hr.mode.trans h.mode, hr.inQuotes.trans h.unquoted, hr.redir.trans h.redir, ?_⟩
  rcases hr.word with hw | ⟨ht, -⟩
  · rw [hw, h.word]
  · simp [h.word] at ht

theorem stands_of_run {t : Ctrl} (hm : t.mode = .single ∨ t.mode = .base ∧ inQuotes t = true) (pat text value : Str)
    (hrun : ∀ f, Related t f → run f (text.map .char) = (f, lits value)) : Stands t pat text value := by
  have hhole : Shell.stepHole pat t = (t, [.lit (.hole pat)]) := by
    rcases hm with hm | ⟨hm, hq⟩
    · simp [Shell.stepHole, hm]
    · simp [Shell.stepHole, hm, hq]
  intro f hr
  rw [hrun f hr, hhole]
  exact ⟨hr, (fillEvents_hole value pat).symm⟩

theorem Quoted.stands {t : Ctrl} (h : Quoted t) (pat v : Str) (hv : '\'' ∉ v) : Stands t pat v v :=
  stands_of_run (Or.inl h.mode) pat v v (fun _ hr => (h.related hr).run v hv)

theorem Quoted.stands_escaped {t : Ctrl} (h : Quoted t) (pat v : Str) : Stands t pat (v.flatMap escapeBackslash) v :=
  stands_of_run (Or.inl h.mode) pat _ v
    (fun _ hr => Quoted.run_escaped escapeBackslash (h.related hr).run_escapeBackslash v)

/-! ## Double quotes -/

/-- The characters that mean something inside double quotes. -/
def doubleSpecial : List Char := ['"', '\\', '$', backquote]

theorem stands_double {t : Ctrl} (hm : t.mode = .base) (hq : inQuotes t = true) (hd : t.redir = .none) (pat v : Str)
    (hv : ∀ x ∈ v, x ∉ doubleSpecial) : Stands t pat v v := by
  apply stands_of_run (Or.inr ⟨hm, hq⟩)
  intro f hr
  have hlit : ∀ x, x ∉ doubleSpecial → Shell.stepChar x f = (f, [.lit (.char x)]) := by
    intro x hx
    have hqf := hr.inQuotes.trans hq
    obtain ⟨mode, frames, w, redir, pending, line⟩ := f
    have hmf : mode = .base := hr.mode.trans hm
    have hdf : redir = .none := hr.redir.trans hd
    subst hmf hdf
    simp only [doubleSpecial, List.mem_cons, List.not_mem_nil, or_false, not_or] at hx
    simp [Shell.stepChar, baseStep, hqf, quotedStep, hx.1, hx.2.1, hx.2.2.1, hx.2.2.2, literal, Redir.add,
      Redir.isDelim]
  induction v with
  | nil => rfl
  | cons x v ih =>
    have hrest := ih (fun y hy => hv y (by simp [hy]))
    simp only [List.map_cons, run, step, hlit x (hv x (by simp)), hrest]
    simp [lits]

/-! ## Here-documents -/

def bodies (v : Str) : List Event := v.map (fun c => .body (.char c))

/-- In the text of a here-document whose delimiter is quoted. -/
structure Body (c : Ctrl) (h : Here) : Prop where
  mode : c.mode = .body
  pending : c.pending.head? = some h
  quoted : h.quoted = true

theorem Body.related {t f : Ctrl} {h : Here} (hb : Body t h) (hr : Related t f) : Body f h :=
  ⟨hr.mode.trans hb.mode, by rw [hr.pending, hb.pending], hb.quoted⟩

theorem Body.stepChar {c : Ctrl} {h : Here} (hb : Body c h) {x : Char} (hx : x ≠ '\n') :
    Shell.stepChar x c = ({ c with line := c.line.next h x }, [.body (.char x)]) := by
  obtain ⟨rest, hrest⟩ := List.head?_eq_some_iff.mp hb.pending
  simp [Shell.stepChar, hb.mode, bodyStep, hrest, hx, hb.quoted]

theorem Body.newline {c : Ctrl} {h : Here} (hb : Body c h) (hl : c.line ≠ .upTo []) :
    Shell.stepChar '\n' c = ({ c with line := .upTo h.delim }, [.body (.char '\n')]) := by
  obtain ⟨rest, hrest⟩ := List.head?_eq_some_iff.mp hb.pending
  simp [Shell.stepChar, hb.mode, bodyStep, hrest, hl]

/-- A value on a line that differs from the delimiter already. -/
theorem Body.stands {t : Ctrl} {h : Here} (hb : Body t h) (hl : t.line = .off) (pat v : Str) (hv : '\n' ∉ v) :
    Stands t pat v v := by
  intro f hr
  have hlf : f.line = .off := by
    rcases hr.line with hline | ⟨ht, -⟩
    · rw [hline, hl]
    · simp [hl] at ht
  have hrun : run f (v.map .char) = (f, bodies v) := by
    have hstep : ∀ x, x ≠ '\n' → Shell.stepChar x f = (f, [.body (.char x)]) := by
      intro x hx
      rw [(hb.related hr).stepChar hx, hlf]
      obtain ⟨mode, frames, w, redir, pending, line⟩ := f
      simp only at hlf
      subst hlf
      rfl
    induction v with
    | nil => rfl
    | cons x v ih =>
      have hrest := ih (fun hx => hv (by simp [hx]))
      simp only [List.map_cons, run, step, hstep x (fun hx => hv (by simp [hx])), hrest]
      simp [bodies]
  have hhole : Shell.stepHole pat t = (t, [.body (.hole pat)]) := by
    obtain ⟨mode, frames, w, redir, pending, line⟩ := t
    have hm := hb.mode
    simp only at hm hl
    subst hm hl
    simp [Shell.stepHole]
  rw [hrun, hhole]
  exact ⟨hr, by simp [fillEvents, fillEvent, bodies]⟩

/-- How far the line is the delimiter. -/
def track (delim : Str) : Str → Line
  | [] => .upTo delim
  | x :: line => match delim with
    | [] => .off
    | d :: delim => if x = d then track delim line else .off

theorem track_end (delim line : Str) (h : track delim line = .upTo []) : line = delim := by
  induction line generalizing delim with
  | nil =>
    simp only [track, Line.upTo.injEq] at h
    exact h.symm
  | cons x line ih =>
    cases delim with
    | nil => simp [track] at h
    | cons d delim =>
      by_cases hx : x = d
      · simp only [track, hx, if_true] at h
        rw [hx, ih delim h]
      · simp [track, hx] at h

theorem track_next {h : Here} (hs : h.strip = false) (delim line : Str) (x : Char) :
    (track delim line).next h x = track delim (line ++ [x]) := by
  induction line generalizing delim with
  | nil =>
    cases delim with
    | nil => simp [track, Line.next]
    | cons d delim => simp [track, Line.next, hs]
  | cons y line ih =>
    cases delim with
    | nil => simp [track, Line.next]
    | cons d delim =>
      by_cases hy : y = d
      · simpa [track, hy] using ih delim
      · simp [track, hy, Line.next]

/-- A text of which no line is the delimiter stays inside the here-document. -/
theorem Body.run_lines {h : Here} (hs : h.strip = false) (v line : Str) (hline : '\n' ∉ line) {c : Ctrl} (hb : Body c h)
    (hl : c.line = track h.delim line) (hv : h.delim ∉ lines (line ++ v)) :
    ∃ l, l ≠ .upTo [] ∧ run c (v.map .char) = ({ c with line := l }, bodies v) := by
  induction v generalizing line c with
  | nil =>
    rw [List.append_nil, lines_of_no_newline line hline] at hv
    refine ⟨c.line, ?_, rfl⟩
    intro hend
    exact hv (by simp [track_end h.delim line (hl ▸ hend)])
  | cons x v ih =>
    by_cases hx : x = '\n'
    · subst hx
      rw [lines_append_newline, lines_of_no_newline line hline] at hv
      simp only [List.singleton_append, List.mem_cons, not_or] at hv
      have hne : c.line ≠ .upTo [] := fun hend => hv.1 (track_end h.delim line (hl ▸ hend)).symm
      obtain ⟨l, hl', hrun⟩ := ih [] (by simp) (c := { c with line := .upTo h.delim }) ⟨hb.mode, hb.pending, hb.quoted⟩
        (by simp [track]) (by simpa using hv.2)
      refine ⟨l, hl', ?_⟩
      simp only [List.map_cons, run, step, hb.newline hne, hrun]
      simp [bodies]
    · obtain ⟨l, hl', hrun⟩ := ih (line ++ [x]) (by simp [hline, Ne.symm hx])
        (c := { c with line := c.line.next h x }) ⟨hb.mode, hb.pending, hb.quoted⟩
        (by simp only [hl]; exact track_next hs h.delim line x) (by simpa using hv)
      refine ⟨l, hl', ?_⟩
      simp only [List.map_cons, run, step, hb.stepChar hx, hrun]
      simp [bodies]

/-- A value at the beginning of a line, none of whose lines is the delimiter. -/
theorem Body.stands_lines {t : Ctrl} {h : Here} (hb : Body t h) (hs : h.strip = false) (hl : t.line = .upTo h.delim)
    (pat v : Str) (hv : h.delim ∉ lines v) : Stands t pat v v := by
  intro f hr
  have hlf : f.line = .upTo h.delim := by
    rcases hr.line with hline | ⟨ht, -⟩
    · rw [hline, hl]
    · simp [hl] at ht
  obtain ⟨l, hl', hrun⟩ := (hb.related hr).run_lines hs v [] (by simp) (by simp [track, hlf]) (by simpa using hv)
  have hhole : Shell.stepHole pat t = ({ t with line := .holed }, [.body (.hole pat)]) := by
    simp [Shell.stepHole, hb.mode, hl]
  rw [hrun, hhole]
  exact ⟨⟨hr.mode, hr.frames, hr.redir, hr.pending, hr.word, Or.inr ⟨rfl, hl'⟩⟩,
    by simp [fillEvents, fillEvent, bodies]⟩

end ShellFill
