import Mathlib.Data.List.Basic

/-!
# A grammar of statements and blocks

    config ::= ( word+ ';' | word+ '{' config '}' | ';' )*

and the machine that reads it symbol by symbol with a stack of open blocks. The machine accepts exactly the grammar,
and printing the trees it builds gives the symbols back, less the empty statements.
-/
namespace BlockGrammar

variable {α : Type}

inductive Sym (α : Type) where
  | word (a : α)
  | semi | opening | closing
  deriving DecidableEq

inductive Config : List (Sym α) → Prop where
  | nil : Config []
  | simple {ws : List α} {rest : List (Sym α)} : ws ≠ [] → Config rest → Config (ws.map Sym.word ++ Sym.semi :: rest)
  | block {ws : List α} {body rest : List (Sym α)} : ws ≠ [] → Config body → Config rest →
      Config (ws.map Sym.word ++ Sym.opening :: (body ++ Sym.closing :: rest))
  | empty {rest : List (Sym α)} : Config rest → Config (.semi :: rest)

theorem Config.append {a b : List (Sym α)} (ha : Config a) (hb : Config b) : Config (a ++ b) := by
  induction ha with
  | nil => exact hb
  | simple hws _ ih => simpa using Config.simple hws ih
  | block hws hbody _ _ ih => simpa using Config.block hws hbody ih
  | empty _ ih => exact Config.empty ih

/-! ## Trees and how they print -/

inductive Tree (α : Type) where
  | simple (words : List α)
  | block (words : List α) (children : List (Tree α))

mutual

def Tree.print : Tree α → List (Sym α)
  | .simple ws => ws.map Sym.word ++ [Sym.semi]
  | .block ws children => ws.map Sym.word ++ Sym.opening :: (printAll children ++ [Sym.closing])

def printAll : List (Tree α) → List (Sym α)
  | [] => []
  | t :: ts => t.print ++ printAll ts

end

@[simp] theorem printAll_nil : printAll ([] : List (Tree α)) = [] := by simp [printAll]

@[simp] theorem printAll_append (a b : List (Tree α)) : printAll (a ++ b) = printAll a ++ printAll b := by
  induction a with
  | nil => simp
  | cons t a ih => simp [printAll, ih]

@[simp] theorem printAll_singleton (t : Tree α) : printAll [t] = t.print := by simp [printAll]

/-- The symbols less the empty statements. The flag is that words are pending. -/
def dropEmpty : Bool → List (Sym α) → List (Sym α)
  | _, [] => []
  | _, .word a :: rest => .word a :: dropEmpty true rest
  | true, .semi :: rest => .semi :: dropEmpty false rest
  | false, .semi :: rest => dropEmpty false rest
  | _, .opening :: rest => .opening :: dropEmpty false rest
  | _, .closing :: rest => .closing :: dropEmpty false rest

/-! ## The machine -/

/-- `above` are the open blocks, innermost first, each with its words and what stands before it; `sink` is what the
innermost one holds so far. -/
structure State (α : Type) where
  above : List (List α × List (Tree α))
  sink : List (Tree α)
  words : List α

def State.start : State α := ⟨[], [], []⟩

def step (s : State α) : Sym α → Option (State α)
  | .word a => some { s with words := s.words ++ [a] }
  | .semi => if s.words = [] then some s else some { s with sink := s.sink ++ [Tree.simple s.words], words := [] }
  | .opening => if s.words = [] then none else some ⟨(s.words, s.sink) :: s.above, [], []⟩
  | .closing =>
    if s.words ≠ [] then none
    else match s.above with
      | [] => none
      | (ws, before) :: above => some ⟨above, before ++ [Tree.block ws s.sink], []⟩

def run : State α → List (Sym α) → Option (State α)
  | s, [] => some s
  | s, x :: xs => (step s x).bind (run · xs)

@[simp] theorem run_nil (s : State α) : run s [] = some s := rfl

theorem run_cons (s : State α) (x : Sym α) (xs : List (Sym α)) : run s (x :: xs) = (step s x).bind (run · xs) := rfl

/-- The trees of a list that is accepted -/
def accept (xs : List (Sym α)) : Option (List (Tree α)) :=
  (run .start xs).bind fun s => if s.words = [] ∧ s.above = [] then some s.sink else none

theorem run_append (s : State α) (xs ys : List (Sym α)) : run s (xs ++ ys) = (run s xs).bind (run · ys) := by
  induction xs generalizing s with
  | nil => simp
  | cons x xs ih => cases h : step s x <;> simp [run_cons, h, ih]

theorem run_words (s : State α) (ws : List α) : run s (ws.map Sym.word) = some { s with words := s.words ++ ws } := by
  induction ws generalizing s with
  | nil => simp
  | cons a ws ih => simp [run_cons, step, ih]

/-- A symbol list of the grammar only adds trees to the innermost block. -/
theorem run_config {xs : List (Sym α)} (h : Config xs) (above : List (List α × List (Tree α))) (sink : List (Tree α)) :
    ∃ ts, run ⟨above, sink, []⟩ xs = some ⟨above, sink ++ ts, []⟩ := by
  induction h generalizing above sink with
  | nil => exact ⟨[], by simp⟩
  | @simple ws rest hws _ ih =>
    obtain ⟨ts, hts⟩ := ih above (sink ++ [Tree.simple ws])
    refine ⟨.simple ws :: ts, ?_⟩
    rw [run_append, run_words]
    simpa [run_cons, step, hws] using hts
  | @block ws body rest hws _ _ ihb ih =>
    obtain ⟨inner, hinner⟩ := ihb ((ws, sink) :: above) []
    obtain ⟨ts, hts⟩ := ih above (sink ++ [Tree.block ws inner])
    refine ⟨.block ws inner :: ts, ?_⟩
    have hopen : step ⟨above, sink, ws⟩ .opening = some ⟨(ws, sink) :: above, [], []⟩ := by simp [step, hws]
    rw [run_append, run_words]
    simp only [List.nil_append, Option.bind_some, run_cons, hopen, run_append, hinner]
    simpa [step] using hts
  | @empty rest _ ih =>
    obtain ⟨ts, hts⟩ := ih above sink
    exact ⟨ts, by simpa [run_cons, step] using hts⟩

/-! ## What has been read -/

/-- Symbols that end inside that many open blocks, between two statements -/
inductive Opened : Nat → List (Sym α) → Prop where
  | top {xs : List (Sym α)} : Config xs → Opened 0 xs
  | block {n : Nat} {xs body : List (Sym α)} {ws : List α} : Opened n xs → ws ≠ [] → Config body →
      Opened (n + 1) (xs ++ (ws.map Sym.word ++ Sym.opening :: body))

theorem Opened.append {n : Nat} {xs ys : List (Sym α)} (h : Opened n xs) (hy : Config ys) : Opened n (xs ++ ys) := by
  cases h with
  | top hx => exact .top (hx.append hy)
  | block hx hws hbody => simpa using Opened.block hx hws (hbody.append hy)

def State.Reads (s : State α) (xs : List (Sym α)) : Prop :=
  ∃ ys, Opened s.above.length ys ∧ xs = ys ++ s.words.map Sym.word

theorem State.Reads.step {s t : State α} {xs : List (Sym α)} {x : Sym α} (h : s.Reads xs) (hs : step s x = some t) :
    t.Reads (xs ++ [x]) := by
  obtain ⟨ys, hys, rfl⟩ := h
  cases x with
  | word a =>
    cases hs
    exact ⟨ys, hys, by simp⟩
  | semi =>
    by_cases hw : s.words = []
    · simp only [BlockGrammar.step, hw, if_true, Option.some.injEq] at hs
      subst hs
      exact ⟨ys ++ [Sym.semi], hys.append (.empty .nil), by simp [hw]⟩
    · simp only [BlockGrammar.step, hw, if_false, Option.some.injEq] at hs
      subst hs
      exact ⟨ys ++ (s.words.map Sym.word ++ [Sym.semi]), hys.append (.simple hw .nil), by simp⟩
  | opening =>
    by_cases hw : s.words = []
    · simp [BlockGrammar.step, hw] at hs
    · simp only [BlockGrammar.step, hw, if_false, Option.some.injEq] at hs
      subst hs
      exact ⟨_, .block hys hw .nil, by simp⟩
  | closing =>
    by_cases hw : s.words = []
    · cases ha : s.above with
      | nil => simp [BlockGrammar.step, hw, ha] at hs
      | cons top above =>
        simp only [BlockGrammar.step, hw, ha, ne_eq, not_true_eq_false, if_false, Option.some.injEq] at hs
        subst hs
        rw [ha] at hys
        cases hys with
        | @block _ zs body ws hz hws hbody =>
          refine ⟨zs ++ (ws.map Sym.word ++ Sym.opening :: (body ++ [Sym.closing])), hz.append (.block hws hbody .nil), ?_⟩
          simp [hw]
    · simp [BlockGrammar.step, hw] at hs

theorem State.Reads.run {s t : State α} {xs ys : List (Sym α)} (h : s.Reads xs) (hs : run s ys = some t) :
    t.Reads (xs ++ ys) := by
  induction ys generalizing s xs with
  | nil =>
    cases hs
    simpa using h
  | cons y ys ih =>
    obtain ⟨u, hu, ht⟩ := Option.bind_eq_some_iff.mp hs
    simpa using ih (h.step hu) ht

/-- The machine accepts exactly the grammar. -/
theorem accept_iff (xs : List (Sym α)) : (∃ ts, accept xs = some ts) ↔ Config xs := by
  constructor
  · rintro ⟨ts, hts⟩
    obtain ⟨s, hs, hend⟩ := Option.bind_eq_some_iff.mp hts
    by_cases hdone : s.words = [] ∧ s.above = []
    · have hstart : (State.start : State α).Reads [] := ⟨[], .top .nil, rfl⟩
      obtain ⟨ys, hys, heq⟩ := hstart.run hs
      obtain rfl : xs = ys := by simpa [hdone.1] using heq
      rw [hdone.2] at hys
      cases hys with
      | top hx => exact hx
    · simp [hdone] at hend
  · intro h
    obtain ⟨ts, hts⟩ := run_config h [] []
    exact ⟨ts, by simp [accept, State.start, hts]⟩

/-! ## What the trees print -/

/-- What has been read, printed from the state -/
def State.print (s : State α) : List (Sym α) :=
  s.above.foldr (fun b out => out ++ printAll b.2 ++ b.1.map Sym.word ++ [Sym.opening]) [] ++ printAll s.sink
    ++ s.words.map Sym.word

theorem step_print {s t : State α} {x : Sym α} {xs : List (Sym α)} (h : step s x = some t) :
    s.print ++ dropEmpty (decide (s.words ≠ [])) (x :: xs) = t.print ++ dropEmpty (decide (t.words ≠ [])) xs := by
  cases x with
  | word a =>
    cases h
    simp [State.print, dropEmpty]
  | semi =>
    by_cases hw : s.words = []
    · simp only [step, hw, if_true, Option.some.injEq] at h
      subst h
      simp [hw, dropEmpty]
    · simp only [step, hw, if_false, Option.some.injEq] at h
      subst h
      simp [State.print, hw, dropEmpty, Tree.print]
  | opening =>
    by_cases hw : s.words = []
    · simp [step, hw] at h
    · simp only [step, hw, if_false, Option.some.injEq] at h
      subst h
      simp [State.print, dropEmpty]
  | closing =>
    by_cases hw : s.words = []
    · cases ha : s.above with
      | nil => simp [step, hw, ha] at h
      | cons top above =>
        simp only [step, hw, ha, ne_eq, not_true_eq_false, if_false, Option.some.injEq] at h
        subst h
        simp [State.print, ha, hw, dropEmpty, Tree.print]
    · simp [step, hw] at h

theorem run_print {s t : State α} {xs : List (Sym α)} (h : run s xs = some t) :
    s.print ++ dropEmpty (decide (s.words ≠ [])) xs = t.print := by
  induction xs generalizing s with
  | nil =>
    cases h
    simp [dropEmpty]
  | cons x xs ih =>
    obtain ⟨u, hu, ht⟩ := Option.bind_eq_some_iff.mp h
    rw [step_print hu, ih ht]

/-- Printing the trees of an accepted list gives it back, less its empty statements. -/
theorem accept_print {xs : List (Sym α)} {ts : List (Tree α)} (h : accept xs = some ts) :
    printAll ts = dropEmpty false xs := by
  obtain ⟨s, hs, hend⟩ := Option.bind_eq_some_iff.mp h
  by_cases hdone : s.words = [] ∧ s.above = []
  · simp only [hdone, and_self, if_true, Option.some.injEq] at hend
    have hp := run_print hs
    simpa [State.print, State.start, hdone, hend] using hp.symm
  · simp [hdone] at hend

end BlockGrammar
