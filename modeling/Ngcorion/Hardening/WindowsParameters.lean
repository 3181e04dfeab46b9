import Mathlib.Data.List.Nodup
import Ngcorion.Hardening.ServiceParameters
import Ngcorion.Hardening.WindowsTemplates
import Ngcorion.PowerShell

/-!
# Parameters of Windows hardening statements

A number is put into a statement in its canonical form, a text as it is unless it has one of a few
characters. That list has one of the five quote characters of PowerShell, and nothing is asked of the
names: what stands between any two braces of a statement can be one.
-/
namespace WindowsParameters

open Text ParamSecurity PowerShell WindowsTemplates
open ShellParameters (brace)
open ServiceParameters (InputType ParameterMetadata)

/-! ## Validation -/

/-- `WINDOWS_PARAMETER_REGISTRY` -/
def WINDOWS_PARAMETER_REGISTRY : List (Str × ParameterMetadata) :=
  [(lit "NEW_ADMIN_NAME", ⟨.text, none, none, none⟩), (lit "NEW_GUEST_NAME", ⟨.text, none, none, none⟩),
   (lit "MAX_PASSWORD_AGE", ⟨.number, none, some 1, some 365⟩),
   (lit "LOCKOUT_DURATION", ⟨.number, none, some 15, some 99999⟩),
   (lit "LOCKOUT_THRESHOLD", ⟨.number, none, some 1, some 5⟩),
   (lit "LOCKOUT_WINDOW", ⟨.number, none, some 15, some 99999⟩)]

def get_windows_parameter_metadata (name : Str) : Option ParameterMetadata := Dict.get WINDOWS_PARAMETER_REGISTRY name

def _UNSAFE_TEXT_CHARS : List Char := ['\'', backtick, '$', ';', '\n', '\r', '{', '}']

abbrev Parameters := List (Str × Str)

section
variable (dg : Digits)

/-- What `_validate_windows_parameters` says of one parameter -/
def refusal (name value : Str) : Option Str :=
  let text :=
    (_UNSAFE_TEXT_CHARS.find? (fun bad => bad ∈ value)).map fun bad =>
      lit "Parameter " ++ name ++ lit " contains unsupported character " ++ reprChar bad
  let number (min_value max_value : Option Int) :=
    match int dg (strip value) with
    | none => some (lit "Parameter " ++ name ++ lit ": '" ++ value ++ lit "' is not a number")
    | some number =>
      if min_value.any (number < ·) then
        some (lit "Parameter " ++ name ++ lit ": " ++ intText number ++ lit " is below the minimum " ++
          intText (min_value.getD 0))
      else if max_value.any (· < number) then
        some (lit "Parameter " ++ name ++ lit ": " ++ intText number ++ lit " is above the maximum " ++
          intText (max_value.getD 0))
      else none
  match get_windows_parameter_metadata name with
  | some ⟨.number, options, min_value, max_value⟩ | some ⟨.select, options, min_value, max_value⟩ =>
    match options with
    | some (option :: options) =>
      match validate_select value name (option :: options) with
      | .error message => some message
      | .ok _ => none
    | _ => number min_value max_value
  | _ => text

def _validate_windows_parameters (parameters : Parameters) : Option Str :=
  parameters.findSome? fun p => refusal dg p.1 p.2

/-- The parameter is a number that its metadata gives no options for. -/
def isNumber (name : Str) : Bool :=
  match get_windows_parameter_metadata name with
  | some ⟨.number, options, _, _⟩ | some ⟨.select, options, _, _⟩ => options.getD [] = []
  | _ => false

/-- The form in which a value is put in; a number has been read before, so that `int` does not fail. -/
def canonical (name value : Str) : Str :=
  if isNumber name then ((int dg (strip value)).map intText).getD value else value

def _validated_parameters (parameters : Parameters) : Except Str Parameters :=
  match _validate_windows_parameters dg parameters with
  | some error => .error error
  | none => .ok (parameters.map fun p => (p.1, canonical dg p.1 p.2))

/-! ## Statements -/

/-- A statement in which the names in braces are replaced one after the other. -/
def render (parameters : Parameters) (stmt : Str) : Str :=
  parameters.foldl (fun stmt p => Placeholder.replace (brace p.1) p.2 stmt) stmt

def get_windows_template_statements (check_id : Str) (parameters : Parameters) : Except Str (List Str) :=
  match get_windows_hardening_template check_id with
  | none => .ok []
  | some template =>
    (_validated_parameters dg parameters).map fun parameters => template.statements.map (render parameters)

def get_windows_verify_statements (check_id : Str) (parameters : Parameters) : Except Str (List Str) :=
  match get_windows_hardening_template check_id with
  | none => .ok []
  | some template =>
    (_validated_parameters dg parameters).map fun parameters => template.verify_statements.map (render parameters)

end

/-! ## Data -/

/-- The name is like those of `_PLACEHOLDER_RE`. -/
def isPlaceholder : Str → Bool
  | [] => false
  | c :: s => c.isUpper && s.all fun c => c.isUpper || c.isDigit || c = '_'

/-- The statement with plain text in its placeholders -/
def plain (w : Str) (parameters : Parameters) (stmt : Str) : Str :=
  render ((parameters.filter fun p => isPlaceholder p.1).map fun p => (p.1, w)) stmt

/-- Wherever the name stands in braces, a number is within a word, and a text within one literal that both the
placeholder and the value leave open. -/
def Placed (name value stmt : Str) : Prop :=
  ∀ pre post, stmt = pre ++ (brace name ++ post) →
    if isNumber name then (run .gap pre).2 = .word ∧ run .word value = ([], .word)
    else (run .gap pre).2 = .single ∧ run .single (brace name) = ([], .single) ∧ run .single value = ([], .single)

/-- Every value is put where it belongs when its turn comes. -/
def PlacedAll : Parameters → Str → Prop
  | [], _ => True
  | (name, value) :: parameters, stmt =>
    Placed name value stmt ∧ PlacedAll parameters (Placeholder.replace (brace name) value stmt)

/-- The values stay data: they are put where they belong, and the statement has the tokens that it has with
plain text. -/
def Data (parameters : Parameters) (stmt : Str) : Prop :=
  PlacedAll parameters stmt ∧
    ∀ w : Str, w.all Char.isAlphanum = true → shape (render parameters stmt) = shape (plain w parameters stmt)

/-! ## The condition -/

/-- The name in the first braces of a statement that do not begin with a blank -/
def holeOf : Str → Option Str
  | [] => none
  | c :: s => if c = '{' && s.head? != some ' ' then some (s.takeWhile (· ≠ '}')) else holeOf s

/-- The statement in which its hole has the text that is among some parameters. -/
def filled (parameters : Parameters) (stmt : Str) : Str :=
  match holeOf stmt with
  | none => stmt
  | some hole =>
    match Dict.get parameters hole with
    | some value => if isNumber hole then stmt else Placeholder.replace (brace hole) value stmt
    | none => stmt

/-- A text for the hole of the statement has its quote characters in pairs, and no other name stands in braces in the
statement, with the hole filled if its parameter comes first. -/
def Clear (parameters : Parameters) (stmt : Str) : Prop :=
  ∀ before p after, parameters = before ++ p :: after →
    if holeOf stmt = some p.1 then isNumber p.1 = true ∨ paired p.2 = true
    else contains (brace p.1) (filled before stmt) = false

/-! ## Where braces stand -/

/-- How the braces of a statement stand: a blank follows one outside of literals, and one within a literal begins
the hole, behind which the literal ends. -/
inductive Laid (hole : Option Str) : Mode → Str → Prop where
  | nil (m : Mode) : Laid hole m []
  | char {m : Mode} {c : Char} {s : Str} (hc : c ≠ '{') (rest : Laid hole (step m c).2 s) : Laid hole m (c :: s)
  | block {m : Mode} {s : Str} (hm : m ≠ .single) (rest : Laid hole (step m '{').2 (' ' :: s)) :
      Laid hole m ('{' :: ' ' :: s)
  | hole {name : Str} {c : Char} {s : Str} (hname : hole = some name) (hc : isQuote c = false)
      (rest : Laid hole .single ('\'' :: c :: s)) : Laid hole .single (brace name ++ '\'' :: c :: s)

/-- Every brace of a text begins a block. -/
def blocks : Mode → Str → Bool
  | _, [] => true
  | m, c :: s => (c ≠ '{' || (m ≠ .single && s.head? = some ' ')) && blocks (step m c).2 s

theorem Laid.append {hole : Option Str} {m : Mode} {a s : Str} (ha : blocks m a = true) (hs : Laid hole (run m a).2 s) :
    Laid hole m (a ++ s) := by
  induction a generalizing m with
  | nil => exact hs
  | cons c a ih =>
    simp only [blocks, Bool.and_eq_true] at ha
    have hrest : Laid hole (step m c).2 (a ++ s) := ih ha.2 (by simpa only [run_cons] using hs)
    by_cases hc : c = '{'
    · have hblock : m ≠ .single ∧ a.head? = some ' ' := by simpa [hc] using ha.1
      obtain ⟨b, rfl⟩ : ∃ b, a = ' ' :: b := by
        cases a with
        | nil => simp at hblock
        | cons d b => exact ⟨b, by simpa using hblock.2⟩
      subst hc
      exact .block hblock.1 hrest
    · exact .char hc hrest

theorem Laid.of_blocks {hole : Option Str} {m : Mode} {s : Str} (h : blocks m s = true) : Laid hole m s := by
  have happend : Laid hole m (s ++ []) := .append h (.nil _)
  rwa [List.append_nil] at happend

/-- The hole's name -/
structure IsName (name : Str) : Prop where
  ne_nil : name ≠ []
  chars : ∀ c ∈ name, c ≠ '{' ∧ c ≠ '}' ∧ c ≠ ' ' ∧ isQuote c = false

theorem IsName.brace_plain {name : Str} (h : IsName name) : ∀ c ∈ brace name, isQuote c = false := by
  intro c hc
  simp only [brace, List.mem_cons, List.mem_append, List.not_mem_nil, or_false] at hc
  rcases hc with rfl | hc | rfl
  · rfl
  · exact (h.chars c hc).2.2.2
  · rfl

theorem IsName.run_brace {name : Str} (h : IsName name) : run .single (brace name) = ([], .single) :=
  (run_single_iff _).mpr (paired_of_plain h.brace_plain)

/-- A brace outside of literals has a blank behind it; within one it begins the hole. -/
theorem Laid.at_brace {hole : Option Str} {m : Mode} {s pre rest : Str} (h : Laid hole m s)
    (hs : s = pre ++ '{' :: rest) (hhole : ∀ name, hole = some name → IsName name) :
    ((run m pre).2 ≠ .single ∧ rest.head? = some ' ') ∨
      (run m pre).2 = .single ∧
        ∃ name c t, hole = some name ∧ isQuote c = false ∧ rest = name ++ '}' :: '\'' :: c :: t := by
  induction h generalizing pre with
  | nil m => simp at hs
  | @char m c s hc _ ih =>
    cases pre with
    | nil => exact absurd (List.cons.inj hs).1 hc
    | cons d pre =>
      obtain ⟨rfl, htail⟩ := List.cons.inj hs
      simpa only [run_cons] using ih htail
  | @block m s hm _ ih =>
    cases pre with
    | nil =>
      obtain ⟨_, hs⟩ := List.cons.inj hs
      exact Or.inl ⟨hm, by simp [← hs]⟩
    | cons d pre =>
      obtain ⟨rfl, htail⟩ := List.cons.inj hs
      simpa only [run_cons] using ih htail
  | @hole name c s hname hc _ ih =>
    cases pre with
    | nil =>
      refine Or.inr ⟨rfl, name, c, s, hname, hc, ?_⟩
      simpa [brace] using (List.cons.inj hs).2.symm
    | cons d pre =>
      have hfacts := hhole name hname
      -- the brace stands behind the hole, which has no other one
      obtain ⟨b, hpre, hs⟩ : ∃ b, d :: pre = brace name ++ b ∧ '\'' :: c :: s = b ++ '{' :: rest := by
        rcases List.append_eq_append_iff.mp hs with ⟨b, hpre, hs⟩ | ⟨b, hname, hs⟩
        · exact ⟨b, hpre, hs⟩
        · cases b with
          | nil => exact ⟨[], by simpa using hname.symm, by simpa using hs.symm⟩
          | cons e b =>
            obtain ⟨rfl, _⟩ := List.cons.inj hs
            have hin : '{' ∈ name ++ ['}'] := by
              rw [brace, List.cons_append] at hname
              rw [(List.cons.inj hname).2]
              simp
            rcases List.mem_append.mp hin with hin | hin
            · exact absurd rfl (hfacts.chars _ hin).1
            · simp at hin
      rw [hpre, run_append, hfacts.run_brace]
      exact ih hs

theorem number_head {name : Str} (h : isNumber name = true) : name.head? ≠ some ' ' := by
  have hmem : name ∈ WINDOWS_PARAMETER_REGISTRY.map Prod.fst := by
    unfold isNumber get_windows_parameter_metadata at h
    cases hget : Dict.get WINDOWS_PARAMETER_REGISTRY name with
    | none => simp [hget] at h
    | some data => exact List.mem_map_of_mem (Dict.mem_of_get _ _ _ hget)
  exact forall_mem_of_all (p := fun name => name.head? ≠ some ' ') (by with_unfolding_all decide) name hmem

/-- A name in braces that begin in the hole and go on behind it does not stay within the literal. -/
theorem longer_unpaired {hole name post t : Str} {c : Char} (hhole : IsName hole) (hc : isQuote c = false)
    (hne : name ≠ hole) (h : name ++ '}' :: post = hole ++ '}' :: '\'' :: c :: t) : paired (brace name) = false := by
  have hclosed : '}' ∉ hole := fun hin => (hhole.chars _ hin).2.1 rfl
  by_cases hin : '}' ∈ name
  · obtain ⟨a, b, rfl, ha⟩ := List.eq_append_cons_of_mem hin
    rw [List.append_assoc, List.cons_append] at h
    obtain ⟨rfl, hrest⟩ := split_first_inj ha hclosed h
    rw [Bool.eq_false_iff]
    intro hpaired
    -- the literal ends behind the hole, as its quote is alone
    have hquote : ∃ d b', b ++ ['}'] = '\'' :: d :: b' ∧ isQuote d = false := by
      cases b with
      | nil => simp at hrest
      | cons e b =>
        obtain ⟨rfl, htail⟩ := List.cons.inj hrest
        cases b with
        | nil => exact ⟨'}', [], rfl, rfl⟩
        | cons d b => exact ⟨d, b ++ ['}'], rfl, (List.cons.inj htail).1 ▸ hc⟩
    obtain ⟨d, b', hb, hd⟩ := hquote
    have hrun : run .single (brace a ++ '\'' :: d :: b') = ([], .single) := by
      rw [← hb, run_single_iff]
      simpa [brace] using hpaired
    rw [run_append, hhole.run_brace, List.nil_append, run_single_iff, paired_quote rfl] at hrun
    obtain ⟨_, _, he, hd', _⟩ := hrun
    rw [← (List.cons.inj he).1, hd] at hd'
    cases hd'
  · exact absurd (split_first_inj hin hclosed h).1 hne

/-- Only the hole can be filled with data. -/
theorem placed_other {hole : Option Str} {name value stmt : Str} (h : Laid hole .gap stmt)
    (hhole : ∀ name, hole = some name → IsName name) (hne : hole ≠ some name) :
    Placed name value stmt ↔ contains (brace name) stmt = false := by
  rw [← Bool.not_eq_true, contains_iff]
  constructor
  · rintro hplaced ⟨pre, post, rfl⟩
    rw [List.append_assoc] at hplaced h
    have hmode := hplaced pre post rfl
    have hcut : pre ++ (brace name ++ post) = pre ++ '{' :: (name ++ '}' :: post) := by simp [brace]
    rcases h.at_brace hcut hhole with ⟨hout, hblank⟩ | ⟨hin, own, c, t, hown, hc, hrest⟩
    · have htext : isNumber name = false := by
        rw [Bool.eq_false_iff]
        intro hnumber
        apply number_head hnumber
        cases name with
        | nil => simp at hblank
        | cons d name => exact hblank
      rw [if_neg (by simp [htext])] at hmode
      exact hout hmode.1
    · have hunpaired := longer_unpaired (hhole own hown) hc (fun heq => hne (by rw [hown, heq])) hrest
      split at hmode
      · rw [hin] at hmode
        cases hmode.1
      · rw [(run_single_iff _).mp hmode.2.1] at hunpaired
        cases hunpaired
  · intro hno pre post hstmt
    exact absurd ⟨pre, post, by rw [hstmt, List.append_assoc]⟩ hno

/-! ## Filling the hole -/

theorem blocks_of_no_brace {m : Mode} {s : Str} (h : '{' ∉ s) : blocks m s = true := by
  induction s generalizing m with
  | nil => rfl
  | cons c s ih =>
    simp only [List.mem_cons, not_or] at h
    simp [blocks, Ne.symm h.1, ih h.2]

theorem IsName.startsWith_blank {name : Str} (h : IsName name) (s : Str) :
    startsWith (brace name) ('{' :: ' ' :: s) = false := by
  obtain ⟨c, name, rfl⟩ := List.exists_cons_of_ne_nil h.ne_nil
  rw [← Bool.not_eq_true, startsWith_iff]
  rintro ⟨t, ht⟩
  have hc : ' ' = c := by simpa [brace] using (List.cons.inj (List.cons.inj ht).2).1
  exact (h.chars c List.mem_cons_self).2.2.1 hc.symm

theorem startsWith_brace {name s : Str} {c : Char} (h : c ≠ '{') : startsWith (brace name) (c :: s) = false := by
  rw [← Bool.not_eq_true, startsWith_iff]
  rintro ⟨t, ht⟩
  exact h (List.cons.inj ht).1

section
variable {hole : Str} (hhole : IsName hole)
include hhole

/-- With the hole filled, all braces begin blocks. -/
theorem Laid.replace {m : Mode} {value stmt : Str} (h : Laid (some hole) m stmt) (hbrace : '{' ∉ value)
    (hvalue : run .single value = ([], .single)) : Laid none m (Placeholder.replace (brace hole) value stmt) := by
  induction h with
  | nil m => exact .nil m
  | char hc _ ih =>
    rw [Placeholder.replace_cons _ _ _ _ (startsWith_brace hc)]
    exact .char hc ih
  | block hm _ ih =>
    rw [Placeholder.replace_cons _ _ _ _ (startsWith_brace (by decide))] at ih
    rw [Placeholder.replace_cons _ _ _ _ (hhole.startsWith_blank _),
      Placeholder.replace_cons _ _ _ _ (startsWith_brace (by decide))]
    exact .block hm ih
  | hole hname _ _ ih =>
    cases hname
    rw [Placeholder.replace_append _ _ _ (by simp [brace])]
    refine Laid.append (blocks_of_no_brace hbrace) ?_
    rw [hvalue]
    exact ih

/-- Texts that stay within the literal can be exchanged for one another. -/
theorem Laid.run_replace {m : Mode} {v w stmt : Str} (h : Laid (some hole) m stmt) (hv : run .single v = ([], .single))
    (hw : run .single w = ([], .single)) :
    run m (Placeholder.replace (brace hole) v stmt) = run m (Placeholder.replace (brace hole) w stmt) := by
  induction h with
  | nil m => rfl
  | char hc _ ih =>
    simp only [Placeholder.replace_cons _ _ _ _ (startsWith_brace hc), run_cons, ih]
  | block _ _ ih =>
    rw [Placeholder.replace_cons _ v _ _ (hhole.startsWith_blank _),
      Placeholder.replace_cons _ w _ _ (hhole.startsWith_blank _), run_cons, run_cons, ih]
  | hole hname _ _ ih =>
    cases hname
    simp only [Placeholder.replace_append _ _ _ (by simp [brace] : brace hole ≠ []), run_append, hv, hw, ih]

end

theorem IsName.absent {hole : Option Str} {name stmt : Str} (hname : IsName name) (h : Laid hole .gap stmt)
    (hhole : ∀ name, hole = some name → IsName name) (hne : hole ≠ some name) : contains (brace name) stmt = false := by
  rw [← Bool.not_eq_true, contains_iff]
  rintro ⟨pre, post, hstmt⟩
  have hcut : stmt = pre ++ '{' :: (name ++ '}' :: post) := by simp [hstmt, brace]
  rcases h.at_brace hcut hhole with ⟨_, hblank⟩ | ⟨_, own, c, t, hown, _, hrest⟩
  · obtain ⟨d, name, rfl⟩ := List.exists_cons_of_ne_nil hname.ne_nil
    exact (hname.chars d List.mem_cons_self).2.2.1 (by simpa using hblank)
  · have hclosed : ∀ {n}, IsName n → '}' ∉ n := fun hn hin => (hn.chars _ hin).2.1 rfl
    exact hne (by rw [hown, (split_first_inj (hclosed hname) (hclosed (hhole own hown)) hrest).1])

/-- The hole that is seen in a statement -/
theorem Laid.own {hole : Option Str} {m : Mode} {stmt : Str} (h : Laid hole m stmt)
    (hhole : ∀ name, hole = some name → IsName name) :
    Laid (holeOf stmt) m stmt ∧
      ∀ name, holeOf stmt = some name → hole = some name ∧ contains (brace name) stmt = true := by
  have hlater (name : Str) (c : Char) (s : Str) (hin : contains (brace name) s = true) :
      contains (brace name) (c :: s) = true :=
    show (startsWith (brace name) (c :: s) || contains (brace name) s) = true by rw [hin, Bool.or_true]
  induction h with
  | nil m => exact ⟨.nil m, fun _ hnone => nomatch hnone⟩
  | @char m c s hc _ ih =>
    have hsame : holeOf (c :: s) = holeOf s := by simp [holeOf, hc]
    rw [hsame]
    exact ⟨.char hc ih.1, fun name hname => ⟨(ih.2 name hname).1, hlater name c s (ih.2 name hname).2⟩⟩
  | @block m s hm _ ih =>
    have hsame : holeOf ('{' :: ' ' :: s) = holeOf (' ' :: s) := by simp [holeOf]
    rw [hsame]
    exact ⟨.block hm ih.1, fun name hname => ⟨(ih.2 name hname).1, hlater name '{' _ (ih.2 name hname).2⟩⟩
  | @hole name c s hname hc rest ih =>
    have hfacts := hhole name hname
    have htake : (name ++ '}' :: '\'' :: c :: s).takeWhile (· ≠ '}') = name := by
      rw [List.takeWhile_append_of_pos fun d hd => by simpa using (hfacts.chars d hd).2.1]
      simp
    have hhead : (name ++ '}' :: '\'' :: c :: s).head? ≠ some ' ' := by
      obtain ⟨d, name, rfl⟩ := List.exists_cons_of_ne_nil hfacts.ne_nil
      simpa using (hfacts.chars d List.mem_cons_self).2.2.1
    have hsame : holeOf (brace name ++ '\'' :: c :: s) = some name := by
      simp [holeOf, brace] at hhead htake ⊢
      simp [hhead, htake]
    rw [hsame]
    refine ⟨.hole rfl hc (hname ▸ rest), fun _ h => Option.some.inj h ▸ ⟨hname, ?_⟩⟩
    exact (contains_iff _ _).mpr ⟨[], '\'' :: c :: s, rfl⟩

/-! ## One parameter after the other -/

/-- None of the names stands in braces. -/
def Absent (parameters : Parameters) (stmt : Str) : Prop := ∀ p ∈ parameters, contains (brace p.1) stmt = false

theorem render_append (a b : Parameters) (stmt : Str) : render (a ++ b) stmt = render b (render a stmt) :=
  List.foldl_append

theorem placedAll_append (a b : Parameters) (stmt : Str) :
    PlacedAll (a ++ b) stmt ↔ PlacedAll a stmt ∧ PlacedAll b (render a stmt) := by
  induction a generalizing stmt with
  | nil => simp [PlacedAll, render]
  | cons p a ih =>
    obtain ⟨name, value⟩ := p
    simp only [List.cons_append, PlacedAll, ih, render, List.foldl_cons, and_assoc]

theorem Absent.render {parameters : Parameters} {stmt : Str} (h : Absent parameters stmt) :
    render parameters stmt = stmt := by
  induction parameters with
  | nil => rfl
  | cons p parameters ih =>
    rw [WindowsParameters.render, List.foldl_cons, Placeholder.replace_of_not_contains _ _ _ (h p List.mem_cons_self)]
    exact ih fun q hq => h q (List.mem_cons_of_mem _ hq)

/-- One name that has its turn between names that are not there -/
theorem render_one {before after : Parameters} {hole value stmt : Str} (hbefore : Absent before stmt)
    (hafter : Absent after (Placeholder.replace (brace hole) value stmt)) :
    render (before ++ (hole, value) :: after) stmt = Placeholder.replace (brace hole) value stmt := by
  rw [render_append, hbefore.render]
  exact hafter.render

theorem Absent.placed {name stmt : Str} (h : contains (brace name) stmt = false) (value : Str) :
    Placed name value stmt := by
  intro pre post hstmt
  rw [← Bool.not_eq_true, contains_iff] at h
  exact absurd ⟨pre, post, by rw [hstmt, List.append_assoc]⟩ h

theorem Absent.placedAll {parameters : Parameters} {stmt : Str} (h : Absent parameters stmt) :
    PlacedAll parameters stmt := by
  induction parameters with
  | nil => exact trivial
  | cons p parameters ih =>
    obtain ⟨name, value⟩ := p
    have hname := h _ List.mem_cons_self
    refine ⟨Absent.placed hname value, ?_⟩
    rw [Placeholder.replace_of_not_contains _ _ _ hname]
    exact ih fun q hq => h q (List.mem_cons_of_mem _ hq)

section
variable {hole : Option Str} {stmt : Str} (hlaid : Laid hole .gap stmt)
  (hhole : ∀ name, hole = some name → IsName name)
include hlaid hhole

theorem placedAll_others {parameters : Parameters} (hne : ∀ p ∈ parameters, hole ≠ some p.1) :
    PlacedAll parameters stmt ↔ Absent parameters stmt := by
  induction parameters with
  | nil => simp [PlacedAll, Absent]
  | cons p parameters ih =>
    obtain ⟨name, value⟩ := p
    have hothers := ih fun q hq => hne q (List.mem_cons_of_mem _ hq)
    rw [PlacedAll, placed_other hlaid hhole (hne _ List.mem_cons_self)]
    constructor
    · rintro ⟨hname, hrest⟩
      rw [Placeholder.replace_of_not_contains _ _ _ hname] at hrest
      exact List.forall_mem_cons.mpr ⟨hname, hothers.mp hrest⟩
    · intro h
      have hname := h _ List.mem_cons_self
      refine ⟨hname, ?_⟩
      rw [Placeholder.replace_of_not_contains _ _ _ hname]
      exact hothers.mpr (List.forall_mem_cons.mp h).2

end

/-- The hole takes exactly the texts whose quote characters are paired. -/
theorem placed_hole {hole value stmt : Str} (hlaid : Laid (some hole) .gap stmt) (hhole : IsName hole)
    (htext : isNumber hole = false) (hin : contains (brace hole) stmt = true) : Placed hole value stmt ↔ paired value = true := by
  rw [← run_single_iff]
  constructor
  · intro h
    obtain ⟨pre, post, hstmt⟩ := (contains_iff _ _).mp hin
    have hmode := h pre post (by rw [hstmt, List.append_assoc])
    rw [if_neg (by simp [htext])] at hmode
    exact hmode.2.2
  · intro hvalue pre post hstmt
    rw [if_neg (by simp [htext])]
    have hcut : stmt = pre ++ '{' :: (hole ++ '}' :: post) := by simp [hstmt, brace]
    rcases hlaid.at_brace hcut (fun name h => Option.some.inj h ▸ hhole) with ⟨_, hblank⟩ | ⟨hmode, _⟩
    · obtain ⟨c, hole, rfl⟩ := List.exists_cons_of_ne_nil hhole.ne_nil
      exact absurd (by simpa using hblank) (hhole.chars c List.mem_cons_self).2.2.1
    · exact ⟨hmode, hhole.run_brace, hvalue⟩

/-! ## The condition by cases -/

theorem clear_without {parameters : Parameters} {stmt : Str} (h : ∀ p ∈ parameters, holeOf stmt ≠ some p.1) :
    Clear parameters stmt ↔ Absent parameters stmt := by
  have hfilled : ∀ before after, parameters = before ++ after → filled before stmt = stmt := by
    intro before after hsplit
    unfold filled
    cases hhole : holeOf stmt with
    | none => rfl
    | some hole =>
      have hnone : Dict.get before hole = none := by
        rw [Dict.get_eq_none, Dict.keys, List.mem_map]
        rintro ⟨p, hp, rfl⟩
        exact h p (by simp [hsplit, hp]) hhole
      simp [hnone]
  constructor
  · intro hclear p hp
    obtain ⟨before, after, hsplit⟩ := List.append_of_mem hp
    have hcase := hclear before p after hsplit
    rwa [if_neg (h p hp), hfilled before _ hsplit] at hcase
  · intro habsent before p after hsplit
    have hp : p ∈ parameters := by simp [hsplit]
    rw [if_neg (h _ hp), hfilled before _ hsplit]
    exact habsent _ hp

/-- What holds of every position of a list holds of those before one of them, of that one and of those after it. -/
theorem forall_split {α : Type} {P : List α → α → Prop} {a b : List α} {y : α} :
    (∀ before x after, a ++ y :: b = before ++ x :: after → P before x) ↔
      (∀ before x after, a = before ++ x :: after → P before x) ∧ P a y ∧
        ∀ before x after, b = before ++ x :: after → P (a ++ y :: before) x := by
  constructor
  · intro h
    refine ⟨?_, h a y b rfl, ?_⟩
    · rintro before x after rfl
      exact h before x (after ++ y :: b) (by simp)
    · rintro before x after rfl
      exact h (a ++ y :: before) x after (by simp)
  · rintro ⟨hbefore, hy, hafter⟩ before x after hsplit
    rcases List.append_eq_append_iff.mp hsplit with ⟨c, rfl, hc⟩ | ⟨c, rfl, hc⟩
    · cases c with
      | nil =>
        obtain ⟨rfl, -⟩ := List.cons.inj hc
        simpa using hy
      | cons d c =>
        obtain ⟨rfl, rfl⟩ := List.cons.inj hc
        exact hafter c x after rfl
    · cases c with
      | nil =>
        obtain ⟨rfl, -⟩ := List.cons.inj hc
        simpa using hy
      | cons d c =>
        obtain ⟨rfl, -⟩ := List.cons.inj hc
        exact hbefore before x c rfl

theorem clear_with {before after : Parameters} {hole value stmt : Str} (hhole : holeOf stmt = some hole)
    (htext : isNumber hole = false) (hbefore : hole ∉ Dict.keys before) (hafter : hole ∉ Dict.keys after) :
    Clear (before ++ (hole, value) :: after) stmt ↔
      Absent before stmt ∧ paired value = true ∧ Absent after (Placeholder.replace (brace hole) value stmt) := by
  have hother : ∀ {part : Parameters}, hole ∉ Dict.keys part → ∀ p ∈ part, holeOf stmt ≠ some p.1 := by
    intro part hpart p hp heq
    rw [hhole] at heq
    exact hpart (Option.some.inj heq ▸ List.mem_map_of_mem hp)
  have hfilled : ∀ part, filled (before ++ (hole, value) :: part) stmt = Placeholder.replace (brace hole) value stmt := by
    intro part
    simp [filled, hhole, Dict.get_append_of_not_mem _ _ _ hbefore, Dict.get_cons, htext]
  rw [Clear, forall_split, ← Clear, clear_without (hother hbefore)]
  refine and_congr_right fun _ => and_congr (by simp [hhole, htext]) ?_
  constructor
  · intro h p hp
    obtain ⟨a, b, hsplit⟩ := List.append_of_mem hp
    have hcase := h a p b hsplit
    rwa [if_neg (hother hafter p hp), hfilled] at hcase
  · intro h a p b hsplit
    have hp : p ∈ after := by simp [hsplit]
    rw [if_neg (hother hafter p hp), hfilled]
    exact h p hp

/-! ## Statements with a hole in a literal -/

theorem isName_of_placeholder {name : Str} (h : isPlaceholder name = true) : IsName name := by
  have hchars : ∀ n < 128, ((Char.ofNat n).isUpper || (Char.ofNat n).isDigit || Char.ofNat n = '_') = true →
      Char.ofNat n ≠ '{' ∧ Char.ofNat n ≠ '}' ∧ Char.ofNat n ≠ ' ' ∧ isQuote (Char.ofNat n) = false := by
    with_unfolding_all decide
  cases name with
  | nil => cases h
  | cons c s =>
    refine ⟨List.cons_ne_nil c s, fun d hd => ?_⟩
    have hd' : (d.isUpper || d.isDigit || d = '_') = true := by
      simp only [isPlaceholder, Bool.and_eq_true, List.all_eq_true] at h
      rcases List.mem_cons.mp hd with rfl | hd
      · simp [h.1]
      · exact h.2 d hd
    have hlt : d.toNat < 128 := by
      by_cases hd_ : d = '_'
      · simp [hd_]
      · refine alphanum_lt ?_
        simp only [Char.isAlphanum, isAlpha_eq, Bool.or_eq_true] at hd' ⊢
        rcases hd' with (hd' | hd') | hd'
        · exact Or.inl (Or.inl hd')
        · exact Or.inr hd'
        · exact absurd (by simpa using hd') hd_
    have hfacts := hchars d.toNat hlt
    rw [Char.ofNat_toNat] at hfacts
    exact hfacts hd'

theorem plain_paired {w : Str} (hw : w.all Char.isAlphanum = true) : run .single w = ([], .single) ∧ '{' ∉ w := by
  rw [List.all_eq_true] at hw
  refine ⟨(run_single_iff w).mpr (paired_of_plain fun c hc => (isWord_of_alphanum (hw c hc)).2), fun hin => ?_⟩
  exact absurd (hw _ hin) (by decide)

section
variable {hole : Option Str} {stmt : Str} (hlaid : Laid hole .gap stmt)
  (hhole : ∀ name, hole = some name → IsName name ∧ isNumber name = false)
include hlaid hhole

/-- The parameters of a plain statement: placeholders other than the hole are not there. -/
theorem plain_absent (w : Str) {parameters : Parameters} (hne : ∀ p ∈ parameters, hole ≠ some p.1) :
    Absent ((parameters.filter fun p => isPlaceholder p.1).map fun p => (p.1, w)) stmt := by
  intro p hp
  obtain ⟨q, hq, rfl⟩ := List.mem_map.mp hp
  obtain ⟨hq, hplaceholder⟩ := List.mem_filter.mp hq
  exact (isName_of_placeholder (by simpa using hplaceholder)).absent hlaid (fun name h => (hhole name h).1) (hne q hq)

end

/-- In a statement that has no hole in a word, the values are data exactly under the condition. -/
theorem data_iff_laid {hole : Option Str} {stmt : Str} (hlaid : Laid hole .gap stmt)
    (hhole : ∀ name, hole = some name → IsName name ∧ isNumber name = false) {parameters : Parameters}
    (hdict : (Dict.keys parameters).Nodup) (hbrace : ∀ p ∈ parameters, isNumber p.1 = false → '{' ∉ p.2) :
    Data parameters stmt ↔ Clear parameters stmt := by
  obtain ⟨hown, howned⟩ := hlaid.own fun name h => (hhole name h).1
  have hnames : ∀ name, holeOf stmt = some name → IsName name ∧ isNumber name = false :=
    fun name h => hhole name (howned name h).1
  by_cases hwith : ∃ p ∈ parameters, holeOf stmt = some p.1
  · obtain ⟨⟨name, value⟩, hp, hname⟩ := hwith
    obtain ⟨before, after, rfl⟩ := List.append_of_mem hp
    obtain ⟨hfacts, htext⟩ := hnames name hname
    have hdistinct : name ∉ Dict.keys before ∧ name ∉ Dict.keys after := by
      rw [Dict.keys_append, Dict.keys_cons, List.nodup_middle, List.nodup_cons] at hdict
      simpa using hdict.1
    rw [hname] at hown
    have hothers : ∀ {part : Parameters}, name ∉ Dict.keys part → ∀ p ∈ part, some name ≠ some p.1 :=
      fun hpart p hp heq => hpart (Option.some.inj heq ▸ List.mem_map_of_mem hp)
    have hsome : ∀ n, some name = some n → IsName n ∧ isNumber n = false :=
      fun n h => Option.some.inj h ▸ ⟨hfacts, htext⟩
    have hone : ∀ n, some name = some n → IsName n := fun n h => (hsome n h).1
    have hlater : paired value = true → Laid none .gap (Placeholder.replace (brace name) value stmt) :=
      fun hpaired => hown.replace hfacts (hbrace _ hp htext) ((run_single_iff value).mpr hpaired)
    have hplacedAll : PlacedAll (before ++ (name, value) :: after) stmt ↔
        Absent before stmt ∧ paired value = true ∧ Absent after (Placeholder.replace (brace name) value stmt) := by
      rw [placedAll_append, placedAll_others hown hone (hothers hdistinct.1)]
      refine and_congr_right fun hbefore => ?_
      rw [hbefore.render, PlacedAll, placed_hole hown hfacts htext (howned name hname).2]
      refine and_congr_right fun hpaired => ?_
      exact placedAll_others (hlater hpaired) (fun _ h => nomatch h) (fun _ _ h => nomatch h)
    rw [clear_with hname htext hdistinct.1 hdistinct.2, Data, hplacedAll, and_iff_left_iff_imp]
    rintro ⟨hbefore, hpaired, hafter⟩ w hw
    have hvalue := (run_single_iff value).mpr hpaired
    have hplainBefore := plain_absent hown hsome w (hothers hdistinct.1)
    rw [render_one hbefore hafter, plain, List.filter_append, List.map_append, shape, shape]
    cases hplaceholder : isPlaceholder name with
    | true =>
      have hplain := hown.replace hfacts (plain_paired hw).2 (plain_paired hw).1
      have hplainAfter := plain_absent hplain (fun _ h => nomatch h) w fun p (_ : p ∈ after) h => nomatch h
      simp only [List.filter_cons, hplaceholder, if_true, List.map_cons]
      rw [render_one hplainBefore hplainAfter, hown.run_replace hfacts hvalue (plain_paired hw).1]
    | false =>
      -- a hole that is no placeholder keeps its text in the plain statement
      have hplainAfter := plain_absent hown hsome w (hothers hdistinct.2)
      simp only [List.filter_cons, hplaceholder, Bool.false_eq_true, if_false]
      rw [render_append, hplainBefore.render, hplainAfter.render, hown.run_replace hfacts hvalue hfacts.run_brace,
        Placeholder.replace_self _ _ (by simp [brace])]
  · have hne : ∀ p ∈ parameters, holeOf stmt ≠ some p.1 := fun p hp h => hwith ⟨p, hp, h⟩
    rw [clear_without hne, Data, placedAll_others hown (fun name h => (hnames name h).1) hne, and_iff_left_iff_imp]
    intro habsent w _
    rw [habsent.render, plain, (plain_absent hown hnames w hne).render]

/-! ## Statements that end with a number -/

/-- The placeholder of a number ends the only word in which a brace stands. -/
structure Counted (front name stmt : Str) : Prop where
  stmt_eq : stmt = front ++ brace name
  front_plain : '{' ∉ front
  front_word : (run .gap front).2 = .word
  number : isNumber name = true
  placeholder : isPlaceholder name = true

theorem absent_of_no_brace {name stmt : Str} (h : '{' ∉ stmt) : contains (brace name) stmt = false := by
  rw [← Bool.not_eq_true, contains_iff]
  rintro ⟨pre, post, rfl⟩
  exact h (by simp [brace])

theorem run_number {value : Str} (h : ∀ c ∈ value, c = '-' ∨ c.isDigit = true) :
    run .word value = ([], .word) ∧ '{' ∉ value := by
  constructor
  · refine run_word fun c hc => ?_
    rcases h c hc with rfl | hdigit
    · rfl
    · exact (isWord_of_alphanum (by simp [Char.isAlphanum, hdigit])).1
  · intro hin
    rcases h _ hin with h | h
    · exact absurd h (by decide)
    · exact absurd h (by decide)

section
variable {front name stmt : Str} (h : Counted front name stmt)
include h

theorem Counted.only {other pre post : Str} (hstmt : stmt = pre ++ (brace other ++ post)) :
    other = name ∧ pre = front := by
  have hname := isName_of_placeholder h.placeholder
  have hclosed : '{' ∉ name ++ ['}'] := by
    intro hin
    rcases List.mem_append.mp hin with hin | hin
    · exact (hname.chars _ hin).1 rfl
    · simp at hin
  have hcut : pre ++ '{' :: (other ++ '}' :: post) = front ++ '{' :: (name ++ ['}']) := by
    rw [h.stmt_eq] at hstmt
    simpa [brace] using hstmt.symm
  have hpre : '{' ∉ pre := by
    have hcount := congrArg (List.count '{') hcut
    simp only [List.count_append, List.count_cons_self, List.count_eq_zero.mpr h.front_plain,
      List.count_eq_zero.mpr hclosed] at hcount
    exact List.count_eq_zero.mp (by omega)
  obtain ⟨hfront, hrest⟩ := split_first_inj hpre h.front_plain hcut
  have hopen : '}' ∉ name := fun hin => (hname.chars _ hin).2.1 rfl
  refine ⟨?_, hfront⟩
  by_cases hin : '}' ∈ other
  · obtain ⟨a, b, rfl, ha⟩ := List.eq_append_cons_of_mem hin
    rw [List.append_assoc, List.cons_append] at hrest
    exact absurd (split_first_inj ha hopen hrest).2 (by simp)
  · exact (split_first_inj hin hopen hrest).1

theorem Counted.absent {other : Str} (hne : other ≠ name) : contains (brace other) stmt = false := by
  rw [← Bool.not_eq_true, contains_iff]
  rintro ⟨pre, post, hstmt⟩
  exact hne (h.only (by rw [hstmt, List.append_assoc])).1

theorem Counted.replace (value : Str) : Placeholder.replace (brace name) value stmt = front ++ value := by
  have hstarts : ∀ a : Str, '{' ∉ a → Placeholder.startsIn (brace name) a (brace name) = false := by
    intro a ha
    induction a with
    | nil => rfl
    | cons c a ih =>
      simp only [List.mem_cons, not_or] at ha
      rw [Placeholder.startsIn, startsWith_brace (Ne.symm ha.1), ih ha.2]
      rfl
  have hfill := Placeholder.replace_append (brace name) value [] (by simp [brace])
  rw [List.append_nil] at hfill
  rw [h.stmt_eq, Placeholder.replace_outside _ _ _ _ (hstarts front h.front_plain), hfill]
  simp [Placeholder.replace, Placeholder.replaceFrom]

theorem Counted.holeOf_eq : holeOf stmt = some name := by
  have hname := isName_of_placeholder h.placeholder
  have hbrace : holeOf (brace name) = some name := by
    obtain ⟨c, s, rfl⟩ := List.exists_cons_of_ne_nil hname.ne_nil
    have htake : (c :: s ++ ['}']).takeWhile (· ≠ '}') = c :: s := by
      rw [List.takeWhile_append_of_pos fun d hd => by simpa using (hname.chars d hd).2.1]
      simp
    have hhead : c ≠ ' ' := (hname.chars c List.mem_cons_self).2.2.1
    simp [holeOf, brace, hhead] at htake ⊢
    exact htake
  have hskip : ∀ a : Str, '{' ∉ a → holeOf (a ++ brace name) = holeOf (brace name) := by
    intro a ha
    induction a with
    | nil => rfl
    | cons c a ih =>
      simp only [List.mem_cons, not_or] at ha
      simp [holeOf, Ne.symm ha.1, ih ha.2]
  rw [h.stmt_eq, hskip front h.front_plain, hbrace]

theorem Counted.clear (parameters : Parameters) : Clear parameters stmt := by
  intro before p after _
  have hfilled : filled before stmt = stmt := by
    unfold filled
    rw [h.holeOf_eq]
    simp only [h.number, if_true]
    split <;> rfl
  rw [h.holeOf_eq, hfilled]
  split
  · next hname => exact Or.inl (Option.some.inj hname ▸ h.number)
  · next hname => exact h.absent fun heq => hname (heq ▸ rfl)

/-- Parameters that may have the number among them -/
theorem Counted.cases {parameters : Parameters} (hdict : (Dict.keys parameters).Nodup) :
    Absent parameters stmt ∨ ∃ before value after, parameters = before ++ (name, value) :: after ∧ Absent before stmt := by
  by_cases hwith : name ∈ Dict.keys parameters
  · obtain ⟨⟨_, value⟩, hmem, rfl⟩ := List.mem_map.mp hwith
    obtain ⟨before, after, rfl⟩ := List.append_of_mem hmem
    refine Or.inr ⟨before, value, after, rfl, fun p hp => h.absent ?_⟩
    rintro rfl
    rw [Dict.keys_append, Dict.keys_cons, List.nodup_middle, List.nodup_cons] at hdict
    exact hdict.1 (List.mem_append_left _ (List.mem_map_of_mem hp))
  · refine Or.inl fun p hp => h.absent ?_
    rintro rfl
    exact hwith (List.mem_map_of_mem hp)

/-- A number is always data. -/
theorem Counted.data {parameters : Parameters} (hdict : (Dict.keys parameters).Nodup)
    (hnumbers : ∀ p ∈ parameters, isNumber p.1 = true → ∀ c ∈ p.2, c = '-' ∨ c.isDigit = true) :
    Data parameters stmt := by
  have hothers : ∀ (w : Str) {part : Parameters}, Absent part stmt →
      Absent ((part.filter fun p => isPlaceholder p.1).map fun p => (p.1, w)) stmt := by
    intro w part hpart p hp
    obtain ⟨q, hq, rfl⟩ := List.mem_map.mp hp
    exact hpart q (List.mem_filter.mp hq).1
  have hfilled (value : Str) (part : Parameters) (hvalue : '{' ∉ value) :
      Absent part (Placeholder.replace (brace name) value stmt) := by
    intro p _
    rw [h.replace]
    exact absent_of_no_brace (by simpa using ⟨h.front_plain, hvalue⟩)
  rcases h.cases hdict with habsent | ⟨before, value, after, rfl, hbefore⟩
  · refine ⟨habsent.placedAll, fun w _ => ?_⟩
    rw [habsent.render, plain, (hothers w habsent).render]
  · obtain ⟨hword, hvalue⟩ := run_number (hnumbers (name, value) (by simp) h.number)
    constructor
    · rw [placedAll_append, hbefore.render]
      refine ⟨hbefore.placedAll, fun pre post hstmt => ?_, (hfilled value after hvalue).placedAll⟩
      rw [if_pos h.number, (h.only hstmt).2]
      exact ⟨h.front_word, hword⟩
    · intro w hw
      have hplain : (((name, value) :: after).filter fun p => isPlaceholder p.1) =
          (name, value) :: after.filter fun p => isPlaceholder p.1 := by
        simp [h.placeholder]
      rw [render_one hbefore (hfilled value after hvalue), plain, List.filter_append, hplain, List.map_append, List.map_cons,
        render_one (hothers w hbefore) (hfilled w _ (plain_paired hw).2), h.replace, h.replace]
      have hplainWord : run .word w = ([], .word) :=
        run_word fun c hc => (isWord_of_alphanum (List.all_eq_true.mp hw c hc)).1
      simp only [shape, run_append, h.front_word, hword, hplainWord]

end

/-! ## The statements of the templates -/

/-- A statement with a hole in a literal, or none, or one that ends with a number -/
def Formed (stmt : Str) : Prop :=
  (∃ hole, Laid hole .gap stmt ∧ ∀ name, hole = some name → IsName name ∧ isNumber name = false) ∨
    ∃ front name, Counted front name stmt

theorem Formed.of_blocks {stmt : Str} (h : blocks .gap stmt = true) : Formed stmt :=
  Or.inl ⟨none, .of_blocks h, fun _ h => nomatch h⟩

/-- A text without braces or quotes -/
def isPlain (s : Str) : Bool := s.all fun c => c ≠ '{' && !isQuote c

/-- The key that ends with a name in braces -/
def groupPolicy : Str := lit "HKLM:\\SOFTWARE\\Policies\\Microsoft\\Windows\\Group Policy\\"

def extension : Str := lit "35378EAC-683F-11D2-A89A-00C04FBBCFA2"

def setText : SetValue → Str
  | .dword n => intText n ++ lit " -Type DWord -Force"
  | .string s => '\'' :: Placeholder.replace ['\''] ['\'', '\''] s ++ lit "' -Type String -Force"

def verifyText : SetValue → Str
  | .dword n => intText n ++ lit ") \x7b 'PASS' \x7d else \x7b 'FAIL' \x7d"
  | .string s => '\'' :: s ++ lit "') \x7b 'PASS' \x7d else \x7b 'FAIL' \x7d"

theorem rows_formed : ∀ c ∈ REGISTRY_CHECKS, (isPlain c.path = true ∨ c.path = groupPolicy ++ brace extension) ∧
    isPlain c.prop = true ∧ blocks .gap (setText c.set) = true ∧ blocks .gap (verifyText c.set) = true :=
  forall_mem_of_all (by with_unfolding_all decide)

theorem Laid.plain {hole : Option Str} {s rest : Str} (hs : isPlain s = true) (h : Laid hole .single rest) :
    Laid hole .single (s ++ rest) := by
  simp only [isPlain, List.all_eq_true, Bool.and_eq_true, Bool.not_eq_true', decide_eq_true_eq] at hs
  refine Laid.append (blocks_of_no_brace fun hin => (hs _ hin).1 rfl) ?_
  rwa [(run_single_iff s).mpr (paired_of_plain fun c hc => (hs c hc).2)]

/-- The text ends the literal before it. -/
def closes : Str → Bool
  | '\'' :: c :: _ => !isQuote c
  | _ => false

/-- A text that can stand at the end of a literal -/
def Inner (s : Str) : Prop :=
  ∀ t rest : Str, closes t = true → Laid (some extension) .single (t ++ rest) →
    Laid (some extension) .single (s ++ (t ++ rest))

theorem inner_path {path : Str} (h : isPlain path = true ∨ path = groupPolicy ++ brace extension) : Inner path := by
  intro t rest ht hrest
  rcases h with h | rfl
  · exact .plain h hrest
  · obtain ⟨c, t, rfl, hc⟩ : ∃ c t', t = '\'' :: c :: t' ∧ isQuote c = false := by
      unfold closes at ht
      split at ht
      · exact ⟨_, _, rfl, by simpa using ht⟩
      · cases ht
    rw [List.append_assoc]
    exact .plain (by with_unfolding_all decide) (.hole rfl hc hrest)

/-- The fixed text before a part of a statement -/
theorem Laid.fixed {hole : Option Str} {m n : Mode} {a s : Str} (ha : (blocks m a && (run m a).2 = n) = true)
    (hs : Laid hole n s) : Laid hole m (a ++ s) := by
  obtain ⟨hblocks, hmode⟩ : blocks m a = true ∧ (run m a).2 = n := by simpa using ha
  exact .append hblocks (hmode ▸ hs)

section
variable {path prop : Str} {set : SetValue} (hpath : Inner path) (hprop : isPlain prop = true)
include hpath hprop

theorem set_laid (hset : blocks .gap (setText set) = true) :
    Laid (some extension) .gap (_reg_set_statement path prop set) := by
  have hstmt : _reg_set_statement path prop set =
      lit "if (-not (Test-Path -LiteralPath '" ++ (path ++ (lit "')) \x7b New-Item -Path '" ++ (path ++
        (lit "' -Force | Out-Null \x7d; Set-ItemProperty -LiteralPath '" ++ (path ++ (lit "' -Name '" ++ (prop ++
          (lit "' -Value " ++ setText set)))))))) := by
    cases set <;> simp only [_reg_set_statement, setText, List.append_assoc]
  rw [hstmt]
  refine .fixed (n := .single) (by with_unfolding_all decide) (hpath _ _ (by with_unfolding_all decide) ?_)
  refine .fixed (n := .single) (by with_unfolding_all decide) (hpath _ _ (by with_unfolding_all decide) ?_)
  refine .fixed (n := .single) (by with_unfolding_all decide) (hpath _ _ (by with_unfolding_all decide) ?_)
  refine .fixed (n := .single) (by with_unfolding_all decide) (.plain hprop ?_)
  exact .fixed (n := .gap) (by with_unfolding_all decide) (.of_blocks hset)

theorem verify_laid (hverify : blocks .gap (verifyText set) = true) :
    Laid (some extension) .gap (_reg_verify_statement path prop set) := by
  have hstmt : _reg_verify_statement path prop set =
      lit "if ((Get-ItemProperty -LiteralPath '" ++ (path ++ (lit "' -Name '" ++ (prop ++
        (lit "' -ErrorAction SilentlyContinue).'" ++ (prop ++ (lit "' -eq " ++ verifyText set)))))) := by
    cases set with
    | dword n => simp only [_reg_verify_statement, verifyText, List.append_assoc]
    | string s =>
      have hend : lit "') \x7b 'PASS' \x7d else \x7b 'FAIL' \x7d" =
          '\'' :: lit ") \x7b 'PASS' \x7d else \x7b 'FAIL' \x7d" := by
        with_unfolding_all rfl
      simp only [_reg_verify_statement, verifyText, hend, List.append_assoc, List.cons_append, List.nil_append]
  rw [hstmt]
  refine .fixed (n := .single) (by with_unfolding_all decide) (hpath _ _ (by with_unfolding_all decide) ?_)
  refine .fixed (n := .single) (by with_unfolding_all decide) (.plain hprop ?_)
  refine .fixed (n := .single) (by with_unfolding_all decide) (.plain hprop ?_)
  exact .fixed (n := .gap) (by with_unfolding_all decide) (.of_blocks hverify)

end

theorem extension_name : ∀ name, some extension = some name → IsName name ∧ isNumber name = false := by
  intro name h
  cases h
  exact ⟨⟨by with_unfolding_all decide, forall_mem_of_all (by with_unfolding_all decide)⟩, by with_unfolding_all decide⟩

theorem registry_formed {c : RegistryCheck} (hc : c ∈ REGISTRY_CHECKS) :
    Formed (_reg_set_statement c.path c.prop c.set) ∧ Formed (_reg_verify_statement c.path c.prop c.set) := by
  obtain ⟨hpath, hprop, hset, hverify⟩ := rows_formed c hc
  exact ⟨Or.inl ⟨_, set_laid (inner_path hpath) hprop hset, extension_name⟩,
    Or.inl ⟨_, verify_laid (inner_path hpath) hprop hverify, extension_name⟩⟩

/-- The statements of a group of templates -/
def allStatements (templates : List WindowsHardeningTemplate) : List Str :=
  templates.flatMap fun t => t.statements ++ t.verify_statements

def frontOf (stmt : Str) : Str := stmt.takeWhile (· ≠ '{')

set_option maxRecDepth 20000 in
/-- A statement of an account policy ends with a number or has no hole. -/
theorem accountPolicies_formed : ∀ stmt ∈ allStatements accountPolicies, Formed stmt := by
  have hcases : ∀ stmt ∈ allStatements accountPolicies, blocks .gap stmt = true ∨
      ∃ name ∈ holeOf stmt, stmt = frontOf stmt ++ brace name ∧ '{' ∉ frontOf stmt ∧
        (run .gap (frontOf stmt)).2 = .word ∧ isNumber name = true ∧ isPlaceholder name = true :=
    forall_mem_of_all (by with_unfolding_all decide)
  intro stmt hstmt
  rcases hcases stmt hstmt with hblocks | ⟨name, -, hsplit, hfront, hword, hnumber, hplaceholder⟩
  · exact .of_blocks hblocks
  · exact Or.inr ⟨frontOf stmt, name, hsplit, hfront, hword, hnumber, hplaceholder⟩

theorem rename_formed (number builtin : Str) {sid parameter : Str}
    (hfront : (blocks .gap (lit "Rename-LocalUser -Name " ++ accountOf sid ++ lit " -NewName '") &&
      (run .gap (lit "Rename-LocalUser -Name " ++ accountOf sid ++ lit " -NewName '")).2 = .single) = true)
    (hplaceholder : isPlaceholder parameter = true) (htext : isNumber parameter = false)
    (hverify : blocks .gap (passIf (accountOf sid ++ lit " -ne '" ++ builtin ++ ['\''])) = true) :
    ∀ stmt ∈ allStatements [renameAccount number sid parameter builtin], Formed stmt := by
  have hend : lit "\x7d' -ErrorAction Stop" = '}' :: '\'' :: ' ' :: lit "-ErrorAction Stop" := by
    with_unfolding_all rfl
  have hrest : Laid (some parameter) .single ('\'' :: ' ' :: lit "-ErrorAction Stop") :=
    .of_blocks (by with_unfolding_all decide)
  have hstmt : lit "Rename-LocalUser -Name " ++ accountOf sid ++
        (lit " -NewName '" ++ ('{' :: parameter ++ lit "\x7d' -ErrorAction Stop")) =
      lit "Rename-LocalUser -Name " ++ accountOf sid ++ lit " -NewName '" ++
        (brace parameter ++ '\'' :: ' ' :: lit "-ErrorAction Stop") := by
    simp only [hend, brace, List.append_assoc, List.cons_append, List.nil_append]
  have hformed : Formed (lit "Rename-LocalUser -Name " ++ accountOf sid ++
      (lit " -NewName '" ++ ('{' :: parameter ++ lit "\x7d' -ErrorAction Stop"))) := by
    rw [hstmt]
    refine Or.inl ⟨some parameter, .fixed hfront (.hole rfl rfl hrest), fun name h => ?_⟩
    cases h
    exact ⟨isName_of_placeholder hplaceholder, htext⟩
  intro stmt hin
  simp only [allStatements, renameAccount, List.flatMap_cons, List.flatMap_nil, List.append_nil, List.mem_append,
    List.mem_singleton] at hin
  rcases hin with rfl | rfl
  · exact hformed
  · exact .of_blocks hverify

set_option maxRecDepth 20000 in
/-- The groups of templates without holes -/
theorem others_formed :
    ∀ stmt ∈ allStatements (disableGuest :: firewall ++ manualChecks.map manual), blocks .gap stmt = true :=
  forall_mem_of_all (by with_unfolding_all decide)

set_option maxRecDepth 20000 in
theorem audit_formed :
    ∀ stmt ∈ allStatements (auditFixes.map fun f => auditFix f.1 f.2.1 f.2.2), blocks .gap stmt = true :=
  forall_mem_of_all (by with_unfolding_all decide)

theorem template_formed {t : WindowsHardeningTemplate} (ht : t ∈ WINDOWS_HARDENING_TEMPLATES) {stmt : Str}
    (hstmt : stmt ∈ t.statements ++ t.verify_statements) : Formed stmt := by
  have hin : ∀ {group : List WindowsHardeningTemplate}, t ∈ group → stmt ∈ allStatements group :=
    fun hgroup => List.mem_flatMap.mpr ⟨t, hgroup, hstmt⟩
  simp only [WINDOWS_HARDENING_TEMPLATES, List.mem_append] at ht
  rcases ht with (((((hregistry | hpolicy) | haccount) | hfirewall) | haudit) | hmanual)
  · obtain ⟨c, hc, rfl⟩ := List.mem_map.mp hregistry
    have hboth := registry_formed hc
    simp only [registryTemplate, List.cons_append, List.nil_append, List.mem_cons, List.not_mem_nil, or_false] at hstmt
    rcases hstmt with rfl | rfl
    · exact hboth.1
    · exact hboth.2
  · exact accountPolicies_formed _ (hin hpolicy)
  · rcases List.mem_cons.mp haccount with rfl | haccount
    · exact .of_blocks (others_formed _ (hin (by simp)))
    rcases List.mem_cons.mp haccount with rfl | haccount
    · exact rename_formed _ _ (by with_unfolding_all decide) (by with_unfolding_all decide) (by with_unfolding_all decide)
        (by with_unfolding_all decide) _ (hin List.mem_cons_self)
    · rw [List.mem_singleton] at haccount
      subst haccount
      exact rename_formed _ _ (by with_unfolding_all decide) (by with_unfolding_all decide) (by with_unfolding_all decide)
        (by with_unfolding_all decide) _ (hin List.mem_cons_self)
  · exact .of_blocks (others_formed _ (hin (by simp [hfirewall])))
  · exact .of_blocks (audit_formed _ (hin haudit))
  · exact .of_blocks (others_formed _ (hin (by simp [hmanual])))

/-! ## Accepted parameters -/

theorem metadata_cases (name : Str) :
    get_windows_parameter_metadata name = none ∨ get_windows_parameter_metadata name = some ⟨.text, none, none, none⟩ ∨
      ∃ min_value max_value, get_windows_parameter_metadata name = some ⟨.number, none, min_value, max_value⟩ := by
  cases h : get_windows_parameter_metadata name with
  | none => exact Or.inl rfl
  | some data =>
    refine Or.inr ?_
    have hmem := Dict.mem_of_get _ _ _ h
    simp only [WINDOWS_PARAMETER_REGISTRY, List.mem_cons, Prod.mk.injEq, List.not_mem_nil, or_false] at hmem
    rcases hmem with ⟨-, rfl⟩ | ⟨-, rfl⟩ | ⟨-, rfl⟩ | ⟨-, rfl⟩ | ⟨-, rfl⟩ | ⟨-, rfl⟩ <;> simp

section
variable {dg : Digits} {name value : Str}

/-- The form in which a number that is not refused is put in -/
theorem canonical_number (h : refusal dg name value = none) (hnumber : isNumber name = true) :
    ∀ c ∈ canonical dg name value, c = '-' ∨ c.isDigit = true := by
  have hread : ∃ n, int dg (strip value) = some n := by
    rcases metadata_cases name with hmeta | hmeta | ⟨lo, hi, hmeta⟩
    · simp [isNumber, hmeta] at hnumber
    · simp [isNumber, hmeta] at hnumber
    · cases hint : int dg (strip value) with
      | none => simp [refusal, hmeta, hint] at h
      | some n => exact ⟨n, rfl⟩
  obtain ⟨n, hn⟩ := hread
  intro c hc
  simp only [canonical, hnumber, if_true, hn, Option.map_some, Option.getD_some] at hc
  exact mem_intText hc

theorem text_no_brace (h : refusal dg name value = none) (htext : isNumber name = false) : '{' ∉ value := by
  have hfind : _UNSAFE_TEXT_CHARS.find? (fun bad => bad ∈ value) = none := by
    rcases metadata_cases name with hmeta | hmeta | ⟨lo, hi, hmeta⟩
    · simpa [refusal, hmeta] using h
    · simpa [refusal, hmeta] using h
    · simp [isNumber, hmeta] at htext
  have hall := List.find?_eq_none.mp hfind '{' (by decide)
  simpa using hall

end

theorem accepted {dg : Digits} {parameters out : Parameters} (h : _validated_parameters dg parameters = .ok out) :
    out = parameters.map (fun p => (p.1, canonical dg p.1 p.2)) ∧ ∀ p ∈ parameters, refusal dg p.1 p.2 = none := by
  unfold _validated_parameters at h
  cases hcheck : _validate_windows_parameters dg parameters with
  | some error => simp [hcheck] at h
  | none =>
    rw [hcheck] at h
    exact ⟨(Except.ok.inj h).symm, List.findSome?_eq_none_iff.mp hcheck⟩

/-- The condition looks at texts alone, which are put in as they are. -/
theorem clear_canonical (dg : Digits) (parameters : Parameters) (stmt : Str) :
    Clear (parameters.map fun p => (p.1, canonical dg p.1 p.2)) stmt ↔ Clear parameters stmt := by
  have hget : ∀ (part : Parameters) (name : Str),
      Dict.get (part.map fun p => (p.1, canonical dg p.1 p.2)) name = (Dict.get part name).map (canonical dg name) := by
    intro part name
    induction part with
    | nil => rfl
    | cons p part ih =>
      by_cases hname : p.1 = name
      · simp [Dict.get, hname]
      · simp [Dict.get, hname, ih]
  have htext : ∀ name value, isNumber name = false → canonical dg name value = value := by
    intro name value h
    simp [canonical, h]
  have hfilled : ∀ part : Parameters, filled (part.map fun p => (p.1, canonical dg p.1 p.2)) stmt = filled part stmt := by
    intro part
    unfold filled
    cases holeOf stmt with
    | none => rfl
    | some hole =>
      simp only [hget]
      cases Dict.get part hole with
      | none => rfl
      | some value =>
        cases hnumber : isNumber hole with
        | true => simp
        | false => simp [htext hole value hnumber]
  have hvalue (p : Str × Str) : isNumber p.1 = true ∨ paired (canonical dg p.1 p.2) = true ↔
      isNumber p.1 = true ∨ paired p.2 = true := by
    cases hnumber : isNumber p.1 with
    | true => simp
    | false => rw [htext p.1 p.2 hnumber]
  constructor
  · intro h before p after hsplit
    have hcase := h (before.map fun p => (p.1, canonical dg p.1 p.2)) (p.1, canonical dg p.1 p.2)
      (after.map fun p => (p.1, canonical dg p.1 p.2)) (by rw [hsplit, List.map_append, List.map_cons])
    dsimp only at hcase
    rwa [hfilled, hvalue] at hcase
  · intro h before q after hsplit
    obtain ⟨front, rest, rfl, rfl, hrest⟩ := List.map_eq_append_iff.mp hsplit
    obtain ⟨p, back, rfl, rfl, rfl⟩ := List.map_eq_cons_iff.mp hrest
    have hcase := h front p back rfl
    dsimp only
    rwa [hfilled, hvalue]

/-- The values of accepted parameters are data in a statement of a template exactly under the condition. -/
theorem data_iff {dg : Digits} {parameters out : Parameters} (hdict : (Dict.keys parameters).Nodup)
    (hok : _validated_parameters dg parameters = .ok out) {check_id : Str} {t : WindowsHardeningTemplate}
    (ht : get_windows_hardening_template check_id = some t) :
    get_windows_template_statements dg check_id parameters = .ok (t.statements.map (render out)) ∧
      get_windows_verify_statements dg check_id parameters = .ok (t.verify_statements.map (render out)) ∧
      ∀ stmt ∈ t.statements ++ t.verify_statements, Data out stmt ↔ Clear parameters stmt := by
  refine ⟨by simp [get_windows_template_statements, ht, hok, Except.map],
    by simp [get_windows_verify_statements, ht, hok, Except.map], fun stmt hstmt => ?_⟩
  obtain ⟨hout, hrefusal⟩ := accepted hok
  have hkeys : (Dict.keys out).Nodup := by
    rw [hout]
    simpa [Dict.keys, Function.comp_def] using hdict
  have hmem : t ∈ WINDOWS_HARDENING_TEMPLATES := List.mem_reverse.mp (List.mem_of_find?_eq_some ht)
  rw [← clear_canonical dg parameters stmt, ← hout]
  rcases template_formed hmem hstmt with ⟨hole, hlaid, hhole⟩ | ⟨front, name, hcounted⟩
  · refine data_iff_laid hlaid hhole hkeys fun p hp htext => ?_
    rw [hout] at hp
    obtain ⟨q, hq, rfl⟩ := List.mem_map.mp hp
    simp only [canonical, htext, Bool.false_eq_true, if_false]
    exact text_no_brace (hrefusal q hq) htext
  · refine iff_of_true (hcounted.data hkeys fun p hp hnumber => ?_) (hcounted.clear out)
    rw [hout] at hp
    obtain ⟨q, hq, rfl⟩ := List.mem_map.mp hp
    exact canonical_number (hrefusal q hq) hnumber

set_option maxRecDepth 20000 in
theorem plain_name_data :
    (get_windows_template_statements asciiDigits (lit "WIN-2025-2.3.1.3") [(lit "NEW_ADMIN_NAME", lit "LocalOps")] =
        .ok (renameAdministrator.statements.map (render [(lit "NEW_ADMIN_NAME", lit "LocalOps")]))) ∧
      ∀ stmt ∈ renameAdministrator.statements ++ renameAdministrator.verify_statements,
        Data [(lit "NEW_ADMIN_NAME", lit "LocalOps")] stmt ↔ Clear [(lit "NEW_ADMIN_NAME", lit "LocalOps")] stmt := by
  have h := @data_iff asciiDigits [(lit "NEW_ADMIN_NAME", lit "LocalOps")] [(lit "NEW_ADMIN_NAME", lit "LocalOps")] (by simp)
    (by with_unfolding_all rfl) (lit "WIN-2025-2.3.1.3") renameAdministrator (by with_unfolding_all rfl)
  exact ⟨h.1, h.2.2⟩

/-- A text that ends the literal with a typographic quote is accepted and puts a pipeline into the statement. -/
theorem curly_quote_breaks_out :
    _validated_parameters asciiDigits [(lit "NEW_ADMIN_NAME", lit "x’ | Stop-Computer #")] =
        .ok [(lit "NEW_ADMIN_NAME", lit "x’ | Stop-Computer #")] ∧
      get_windows_hardening_template (lit "WIN-2025-2.3.1.3") = some renameAdministrator ∧
      ∃ stmt ∈ renameAdministrator.statements, ¬ Data [(lit "NEW_ADMIN_NAME", lit "x’ | Stop-Computer #")] stmt := by
  refine ⟨by with_unfolding_all rfl, by with_unfolding_all rfl, _, List.mem_singleton_self _, fun h => ?_⟩
  exact absurd (h.2 ['a'] rfl) (by with_unfolding_all decide)

end WindowsParameters
