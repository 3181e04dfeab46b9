import Ngcorion.Hardening.ParamSecurity
import Ngcorion.ShellFill

/-!
# Parameters of shell commands

The templates of a host are shell commands with the names of parameters in
braces. The values are put in one name after the other, each in the form that the
product's own check gives it.
-/
namespace ShellParameters

open Text Placeholder ParamSecurity Shell ShellFill

def brace (name : Str) : Str := '{' :: (name ++ ['}'])

def nameOf (pat : Str) : Str := pat.tail.dropLast

@[simp] theorem nameOf_brace (name : Str) : nameOf (brace name) = name := by simp [nameOf, brace]

/-- The placeholders are the names of the parameters in braces. -/
def holeAt (names : List Str) (s : Str) : Option Nat :=
  (names.find? (fun n => startsWith (brace n) s)).map (fun n => n.length + 1)

section
variable (inserted : Str → Str → Checked) (literal : Str → Str → Str) (placed : Ctrl → Str → Str → Bool)
  (parameters : List (Str × Str))

/-- The loop over the parameters, each replaced in the text that the last one left. -/
def substituteBraces (cmd : Str) : Checked :=
  parameters.foldlM (fun s e => (inserted e.1 e.2).map (fun value => replace (brace e.1) value s)) cmd

def template (cmd : Str) : List Piece := pieces (holeAt (parameters.map Prod.fst)) cmd

/-- What a placeholder's parameter has under `f`. -/
def lookup (f : Str → Str → Str) (pat : Str) : Str :=
  (Dict.get (parameters.map (fun e => (brace e.1, f e.1 e.2))) pat).getD pat

/-- The text that is put in for a value. -/
def textOf (name value : Str) : Str := (inserted name value).toOption.getD []

/-- The texts that are put in, by placeholder. -/
def texts : List (Str × Str) := parameters.map (fun e => (brace e.1, textOf inserted e.1 e.2))

/-- The command has the structure of its template, with the values as literal
text at the places of their own placeholders. -/
def StaysData (cmd sent : Str) : Prop :=
  structureOf (sent.map .char) =
    (fillEvents (lookup parameters literal) (structureOf (template parameters cmd)).1,
      (structureOf (template parameters cmd)).2)

instance (cmd sent : Str) : Decidable (StaysData literal parameters cmd sent) := inferInstanceAs (Decidable (_ = _))

/-- A placeholder's text appears outside the template's placeholders when its turn comes. -/
def substitutedAgain (cmd : Str) : Bool := strays (texts inserted parameters) (template parameters cmd)

/-- Every placeholder is where its parameter may stand, and what follows it keeps it apart. -/
def wellPlacedFrom : Ctrl → List Piece → Bool
  | _, [] => true
  | c, .char x :: ps => nextOk c x && wellPlacedFrom (stepChar x c).1 ps
  | c, .hole pat :: ps =>
    placed c (nameOf pat) (lookup parameters (fun _ value => value) pat) && wellPlacedFrom (stepHole pat c).1 ps

def wellPlaced (cmd : Str) : Bool := wellPlacedFrom placed parameters start (template parameters cmd)

/-! ## What is sent -/

variable {inserted} {parameters}

theorem substituteBraces_ok {cmd s : Str} (h : substituteBraces inserted parameters cmd = .ok s) :
    s = substitute (texts inserted parameters) cmd ∧
      ∀ e ∈ parameters, inserted e.1 e.2 = .ok (textOf inserted e.1 e.2) := by
  induction parameters generalizing cmd with
  | nil =>
    cases h
    exact ⟨rfl, by simp⟩
  | cons e parameters ih =>
    cases hv : inserted e.1 e.2 with
    | error m =>
      rw [substituteBraces, List.foldlM_cons, hv] at h
      simp [Except.map, bind, Except.bind] at h
    | ok w =>
      rw [substituteBraces, List.foldlM_cons, hv] at h
      obtain ⟨hs, hall⟩ := ih h
      constructor
      · rw [hs]
        simp [texts, textOf, substitute, hv, Except.toOption]
      · intro e' he'
        rcases List.mem_cons.mp he' with rfl | he'
        · simp [textOf, hv, Except.toOption]
        · exact hall e' he'

theorem sent_eq_fill {cmd sent : Str} (h : substituteBraces inserted parameters cmd = .ok sent)
    (hs : substitutedAgain inserted parameters cmd = false) :
    sent = fill (texts inserted parameters) (template parameters cmd) := by
  have hne : ∀ e ∈ texts inserted parameters, e.1 ≠ [] := by
    intro e he
    obtain ⟨p, -, rfl⟩ := List.mem_map.mp he
    simp [brace]
  have hfill := substitute_render (texts inserted parameters) hne (template parameters cmd) hs
  rw [(substituteBraces_ok h).1, ← hfill, template, render_pieces]

/-! ## Holes and their parameters -/

theorem holeAt_brace {names : List Str} {s : Str} {n : Nat} (h : holeAt names s = some n) :
    ∃ name ∈ names, s.take (n + 1) = brace name := by
  obtain ⟨name, hfind, rfl⟩ := Option.map_eq_some_iff.mp h
  obtain ⟨rest, rfl⟩ := (startsWith_iff _ _).mp (by simpa using List.find?_some hfind)
  refine ⟨name, List.mem_of_find?_eq_some hfind, ?_⟩
  have hlen : (brace name).length = name.length + 1 + 1 := by simp [brace]
  rw [← hlen, List.take_left]

theorem hole_mem_template {cmd pat : Str} (h : .hole pat ∈ template parameters cmd) :
    ∃ e ∈ parameters, pat = brace e.1 := by
  obtain ⟨s, n, hn, rfl⟩ := hole_mem_pieces _ h
  obtain ⟨name, hname, hpat⟩ := holeAt_brace hn
  obtain ⟨e, he, rfl⟩ := List.mem_map.mp hname
  exact ⟨e, he, hpat⟩

/-- All that is looked up for a placeholder belongs to one parameter. -/
theorem lookup_brace {e : Str × Str} (he : e ∈ parameters) :
    ∃ value, (e.1, value) ∈ parameters ∧ ∀ f, lookup parameters f (brace e.1) = f e.1 value := by
  induction parameters with
  | nil => simp at he
  | cons p parameters ih =>
    by_cases hp : p.1 = e.1
    · exact ⟨p.2, by simp [← hp], fun f => by simp [lookup, Dict.get, hp]⟩
    · have hne : brace p.1 ≠ brace e.1 := fun h => hp (by simpa using congrArg nameOf h)
      rcases List.mem_cons.mp he with rfl | he
      · exact absurd rfl hp
      · obtain ⟨value, hmem, hf⟩ := ih he
        refine ⟨value, by simp [hmem], fun f => ?_⟩
        rw [← hf f]
        simp [lookup, Dict.get, hne]

/-! ## Parameters stay data -/

variable {literal} {placed}

/-- Where every parameter may stand, its text reads as its literal value. -/
def Allowed (inserted : Str → Str → Checked) (literal : Str → Str → Str) (placed : Ctrl → Str → Str → Bool) : Prop :=
  ∀ c name value text, inserted name value = .ok text → placed c name value = true →
    ∀ pat, Stands c pat text (literal name value)

theorem fits_of_wellPlaced (ha : Allowed inserted literal placed)
    (hok : ∀ e ∈ parameters, inserted e.1 e.2 = .ok (textOf inserted e.1 e.2)) (ps : List Piece)
    (hps : ∀ pat, .hole pat ∈ ps → ∃ e ∈ parameters, pat = brace e.1) (c : Ctrl)
    (h : wellPlacedFrom placed parameters c ps = true) :
    Fits (lookup parameters (textOf inserted)) (lookup parameters literal) c ps := by
  induction ps generalizing c with
  | nil => trivial
  | cons p ps ih =>
    have hrest : ∀ pat, .hole pat ∈ ps → ∃ e ∈ parameters, pat = brace e.1 := fun pat hp => hps pat (by simp [hp])
    cases p with
    | char x =>
      simp only [wellPlacedFrom, Bool.and_eq_true] at h
      exact ⟨h.1, ih hrest _ h.2⟩
    | hole pat =>
      simp only [wellPlacedFrom, Bool.and_eq_true] at h
      obtain ⟨e, he, rfl⟩ := hps pat (by simp)
      obtain ⟨value, hmem, hf⟩ := lookup_brace he
      have hplaced := h.1
      rw [hf, nameOf_brace] at hplaced
      refine ⟨?_, ih hrest _ h.2⟩
      rw [hf, hf]
      exact ha c e.1 value _ (hok _ hmem) hplaced _

/-- When no placeholder's text is substituted again and every parameter is where it
may stand, the command has the structure of its template. -/
theorem staysData (ha : Allowed inserted literal placed) {cmd sent : Str}
    (h : substituteBraces inserted parameters cmd = .ok sent)
    (hs : substitutedAgain inserted parameters cmd = false) (hp : wellPlaced placed parameters cmd = true) :
    StaysData literal parameters cmd sent := by
  have hfits := fits_of_wellPlaced ha (substituteBraces_ok h).2 (template parameters cmd)
    (fun _ hpat => hole_mem_template hpat) start hp
  have hfill := structureOf_fill _ _ _ hfits
  rw [sent_eq_fill h hs, StaysData, ← hfill, ← fillPieces_eq_fill]
  rfl

end

end ShellParameters
