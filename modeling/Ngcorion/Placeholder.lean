import Ngcorion.Dict
import Ngcorion.Text

/-!
# Replacing placeholders one after the other

A template is a text with holes. A program that replaces the text of each hole
by its value, one name after the other, in the text that it has so far, gives
the template with all holes filled at once, as long as the text of a hole never
appears anywhere else: in the template's own text, in a value that was put in
before, or across the border of the two.
-/
namespace Placeholder

open Text

/-- Scan for a pattern, leaving out the first characters that belong to the last match. -/
def replaceFrom (pat value : Str) : Nat → Str → Str
  | _, [] => []
  | skip + 1, _ :: s => replaceFrom pat value skip s
  | 0, c :: s =>
    if startsWith pat (c :: s) then value ++ replaceFrom pat value (pat.length - 1) s else c :: replaceFrom pat value 0 s

/-- `s.replace(pat, value)`, for a pattern that is not empty. -/
def replace (pat value s : Str) : Str := replaceFrom pat value 0 s

/-- Replace one pattern after the other, each in the text that the last one left. -/
def substitute (pairs : List (Str × Str)) (s : Str) : Str :=
  pairs.foldl (fun s e => replace e.1 e.2 s) s

/-! ## Templates with holes -/

inductive Piece where
  | char (c : Char)
  | hole (pat : Str)
  deriving DecidableEq

def render : List Piece → Str
  | [] => []
  | .char c :: ps => c :: render ps
  | .hole pat :: ps => pat ++ render ps

@[simp] theorem render_nil : render [] = [] := rfl
@[simp] theorem render_char (c : Char) (ps : List Piece) : render (.char c :: ps) = c :: render ps := rfl
@[simp] theorem render_hole (pat : Str) (ps : List Piece) : render (.hole pat :: ps) = pat ++ render ps := rfl

/-- The template in which every hole that has a value is filled. -/
def fill (pairs : List (Str × Str)) : List Piece → Str
  | [] => []
  | .char c :: ps => c :: fill pairs ps
  | .hole pat :: ps => (Dict.get pairs pat).getD pat ++ fill pairs ps

@[simp] theorem fill_pieces_nil (pairs : List (Str × Str)) : fill pairs [] = [] := rfl

theorem fill_char (pairs : List (Str × Str)) (c : Char) (ps : List Piece) :
    fill pairs (.char c :: ps) = c :: fill pairs ps := rfl

theorem fill_hole (pairs : List (Str × Str)) (pat : Str) (ps : List Piece) :
    fill pairs (.hole pat :: ps) = (Dict.get pairs pat).getD pat ++ fill pairs ps := rfl

/-- Put a value into the holes of one pattern. -/
def put (pat value : Str) : List Piece → List Piece
  | [] => []
  | .char c :: ps => .char c :: put pat value ps
  | .hole p :: ps => if p = pat then value.map .char ++ put pat value ps else .hole p :: put pat value ps

theorem put_char (pat value : Str) (c : Char) (ps : List Piece) :
    put pat value (.char c :: ps) = .char c :: put pat value ps := rfl

theorem put_hole (pat value p : Str) (ps : List Piece) : put pat value (.hole p :: ps) =
    if p = pat then value.map .char ++ put pat value ps else .hole p :: put pat value ps := rfl

/-- The pattern begins inside the first text, followed by the second. -/
def startsIn (pat : Str) : Str → Str → Bool
  | [], _ => false
  | c :: s, t => startsWith pat (c :: (s ++ t)) || startsIn pat s t

/-- The pattern appears where the template has no hole of it. -/
def stray (pat : Str) : List Piece → Bool
  | [] => false
  | .char c :: ps => startsWith pat (c :: render ps) || stray pat ps
  | .hole p :: ps => (p ≠ pat && startsIn pat p (render ps)) || stray pat ps

/-- Some pattern appears outside its holes when its turn comes. -/
def strays : List (Str × Str) → List Piece → Bool
  | [], _ => false
  | (pat, value) :: pairs, ps => stray pat ps || strays pairs (put pat value ps)

/-! ## Reading a template -/

section
variable (holeAt : Str → Option Nat)

/-- Cut a text into characters and holes; `holeAt` tells how many characters a
hole has after its first one. -/
def piecesFrom : Nat → Str → List Piece
  | _, [] => []
  | skip + 1, _ :: s => piecesFrom skip s
  | 0, c :: s =>
    match holeAt (c :: s) with
    | some n => .hole (c :: s.take n) :: piecesFrom n s
    | none => .char c :: piecesFrom 0 s

def pieces (s : Str) : List Piece := piecesFrom holeAt 0 s

theorem render_piecesFrom (s : Str) (skip : Nat) : render (piecesFrom holeAt skip s) = s.drop skip := by
  induction s generalizing skip with
  | nil => simp [piecesFrom]
  | cons c s ih =>
    cases skip with
    | succ skip => simp [piecesFrom, ih]
    | zero =>
      simp only [piecesFrom]
      cases holeAt (c :: s) with
      | none => simp [ih]
      | some n => simp [ih]

theorem hole_mem_piecesFrom {pat : Str} (s : Str) (skip : Nat) (h : .hole pat ∈ piecesFrom holeAt skip s) :
    ∃ t n, holeAt t = some n ∧ pat = t.take (n + 1) := by
  induction s generalizing skip with
  | nil => simp [piecesFrom] at h
  | cons c s ih =>
    cases skip with
    | succ skip => exact ih skip h
    | zero =>
      simp only [piecesFrom] at h
      cases hn : holeAt (c :: s) with
      | none =>
        rw [hn] at h
        exact ih 0 (by simpa using h)
      | some n =>
        rw [hn] at h
        rcases List.mem_cons.mp h with hp | h
        · cases hp
          exact ⟨c :: s, n, hn, rfl⟩
        · exact ih n h

theorem hole_mem_pieces {pat s : Str} (h : .hole pat ∈ pieces holeAt s) : ∃ t n, holeAt t = some n ∧ t.take (n + 1) = pat := by
  obtain ⟨t, n, hn, rfl⟩ := hole_mem_piecesFrom holeAt s 0 h
  exact ⟨t, n, hn, rfl⟩

@[simp] theorem render_pieces (s : Str) : render (pieces holeAt s) = s := by
  rw [pieces, render_piecesFrom, List.drop_zero]

end

/-! ## One after the other is all at once -/

theorem replaceFrom_skip (pat value a s : Str) : replaceFrom pat value a.length (a ++ s) = replaceFrom pat value 0 s := by
  induction a with
  | nil => rfl
  | cons c a ih => exact ih

theorem replace_append (pat value s : Str) (hp : pat ≠ []) :
    replace pat value (pat ++ s) = value ++ replace pat value s := by
  cases pat with
  | nil => exact absurd rfl hp
  | cons c pat =>
    have hstart : startsWith (c :: pat) (c :: (pat ++ s)) = true := startsWith_append (c :: pat) s
    simp only [replace, List.cons_append, replaceFrom, hstart, if_true, List.length_cons, Nat.add_sub_cancel]
    rw [replaceFrom_skip]

theorem replace_cons (pat value s : Str) (c : Char) (h : startsWith pat (c :: s) = false) :
    replace pat value (c :: s) = c :: replace pat value s := by
  simp [replace, replaceFrom, h]

theorem replace_of_not_contains (pat value s : Str) (h : contains pat s = false) : replace pat value s = s := by
  induction s with
  | nil => rfl
  | cons c s ih =>
    obtain ⟨hhead, hrest⟩ := Bool.or_eq_false_iff.mp (show (startsWith pat (c :: s) || contains pat s) = false from h)
    rw [replace_cons pat value s c hhead, ih hrest]

theorem replace_self (pat s : Str) (hp : pat ≠ []) : replace pat pat s = s := by
  induction hn : s.length using Nat.strong_induction_on generalizing s with
  | _ n ih =>
    subst hn
    cases s with
    | nil => rfl
    | cons c s =>
      cases hstart : startsWith pat (c :: s) with
      | false => rw [replace_cons pat pat s c hstart, ih s.length (Nat.lt_succ_self _) s rfl]
      | true =>
        obtain ⟨t, ht⟩ := (startsWith_iff _ _).mp hstart
        have hshorter : t.length < (c :: s).length := by
          rw [ht, List.length_append]
          exact Nat.lt_add_of_pos_left (List.length_pos_of_ne_nil hp)
        rw [ht, replace_append pat pat t hp, ih t.length hshorter t rfl]

theorem replace_outside (pat value a s : Str) (h : startsIn pat a s = false) :
    replace pat value (a ++ s) = a ++ replace pat value s := by
  induction a with
  | nil => rfl
  | cons c a ih =>
    simp only [startsIn, Bool.or_eq_false_iff] at h
    rw [List.cons_append, replace_cons pat value (a ++ s) c h.1, ih h.2, List.cons_append]

theorem render_append (ps qs : List Piece) : render (ps ++ qs) = render ps ++ render qs := by
  induction ps with
  | nil => rfl
  | cons p ps ih => cases p <;> simp [ih]

@[simp] theorem render_map_char (s : Str) : render (s.map .char) = s := by
  induction s with
  | nil => rfl
  | cons c s ih => simp [ih]

theorem fill_append (pairs : List (Str × Str)) (ps qs : List Piece) :
    fill pairs (ps ++ qs) = fill pairs ps ++ fill pairs qs := by
  induction ps with
  | nil => rfl
  | cons p ps ih => cases p <;> simp [fill_char, fill_hole, ih]

@[simp] theorem fill_map_char (pairs : List (Str × Str)) (s : Str) : fill pairs (s.map .char) = s := by
  induction s with
  | nil => rfl
  | cons c s ih => simp [fill_char, ih]

/-- One replacement fills the holes of its pattern. -/
theorem replace_render (pat value : Str) (hp : pat ≠ []) (ps : List Piece) (h : stray pat ps = false) :
    replace pat value (render ps) = render (put pat value ps) := by
  induction ps with
  | nil => rfl
  | cons p ps ih =>
    cases p with
    | char c =>
      simp only [stray, Bool.or_eq_false_iff] at h
      rw [render_char, replace_cons pat value _ c h.1, ih h.2, put_char, render_char]
    | hole p =>
      simp only [stray, Bool.or_eq_false_iff] at h
      by_cases hpat : p = pat
      · rw [render_hole, hpat, replace_append pat value _ hp, ih h.2]
        simp [put_hole, render_append]
      · have hin : startsIn pat p (render ps) = false := by simpa [hpat] using h.1
        rw [render_hole, replace_outside pat value p _ hin, ih h.2]
        simp [put_hole, hpat]

theorem fill_put (pat value : Str) (pairs : List (Str × Str)) (ps : List Piece) :
    fill pairs (put pat value ps) = fill ((pat, value) :: pairs) ps := by
  induction ps with
  | nil => rfl
  | cons p ps ih =>
    cases p with
    | char c => simp [put_char, fill_char, ih]
    | hole p =>
      by_cases hpat : p = pat
      · simp [put_hole, fill_hole, hpat, fill_append, ih, Dict.get]
      · simp [put_hole, fill_hole, hpat, Ne.symm hpat, ih, Dict.get]

theorem fill_nil (ps : List Piece) : fill [] ps = render ps := by
  induction ps with
  | nil => rfl
  | cons p ps ih => cases p <;> simp [fill_char, fill_hole, ih]

/-- Without stray patterns, replacing one name after the other fills the template. -/
theorem substitute_render (pairs : List (Str × Str)) (hp : ∀ e ∈ pairs, e.1 ≠ []) (ps : List Piece)
    (h : strays pairs ps = false) : substitute pairs (render ps) = fill pairs ps := by
  induction pairs generalizing ps with
  | nil => exact (fill_nil ps).symm
  | cons e pairs ih =>
    obtain ⟨pat, value⟩ := e
    simp only [strays, Bool.or_eq_false_iff] at h
    have hstep := replace_render pat value (hp (pat, value) (by simp)) ps h.1
    have hlater := ih (fun e he => hp e (by simp [he])) (put pat value ps) h.2
    rw [fill_put] at hlater
    rw [← hlater, ← hstep]
    rfl

end Placeholder
