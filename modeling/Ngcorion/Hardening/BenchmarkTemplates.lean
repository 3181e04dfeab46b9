import Ngcorion.Hardening.ParamSecurity

/-!
# The remediation templates of the benchmark modules

A template has the statements that fix one check and those that print PASS or FAIL afterwards. Its parameters
are validated against their metadata before they are put into the statements.
-/
namespace BenchmarkTemplates

open Text ParamSecurity

inductive InputType where
  | text | number | select
  deriving DecidableEq

structure ParamMeta where
  name : Str
  input_type : InputType
  required : Bool
  default : Option Str
  validation : Option Str
  options : List Str
  min_value : Option Int
  max_value : Option Int

structure HardeningTemplate where
  check_id : Str
  description : Str
  statements : List Str
  verify_statements : List Str
  requires_restart : Bool
  manual_only : Bool
  parameters : List Str

structure TemplateSet where
  templates : List (Str × HardeningTemplate)
  params : List (Str × ParamMeta)

/-- The values of a request; one that is not a text stands for its `str`. -/
abbrev Parameters := List (Str × Option Str)

/-- Python's digits, `re.fullmatch` and the `repr` of a list of texts. -/
structure Platform where
  digits : Digits
  fullmatch : Str → Str → Bool
  reprList : List Str → Str

/-- `UNSAFE_TEXT_CHARS` -/
def unsafeTextChars : List Char :=
  ['\'', '"', Char.ofNat 96, '$', ';', '|', '&', '<', '>', '\n', '\r', '{', '}', '\\']

namespace TemplateSet

variable (ts : TemplateSet)

def get (check_id : Str) : Option HardeningTemplate := Dict.get ts.templates check_id

def params_for (check_id : Str) : List ParamMeta :=
  match ts.get check_id with
  | none => []
  | some t => t.parameters.filterMap (Dict.get ts.params)

def defaults (check_id : Str) : List (Str × Str) :=
  (ts.params_for check_id).foldl (fun d p => match p.default with
    | some v => Dict.set d p.name v
    | none => d) []

/-- Defaults under the caller's values; blank texts do not override. -/
def merged (check_id : Str) (parameters : Parameters) : List (Str × Str) :=
  parameters.foldl (fun out e => match e.2 with
    | some v => if strip v ≠ [] then Dict.set out e.1 v else out
    | none => out) (ts.defaults check_id)

/-- Required parameters without a default that the caller left empty. -/
def missing (check_id : Str) (parameters : Parameters) : List Str :=
  let merged := ts.merged check_id parameters
  ((ts.params_for check_id).filter (fun p =>
    p.required && p.default.isNone && (((Dict.get merged p.name).getD []) = []))).map (·.name)

/-- The parameters by name; of two with one name the last counts. -/
def allowed (check_id : Str) : List (Str × ParamMeta) :=
  (ts.params_for check_id).foldl (fun d p => Dict.set d p.name p) []

variable (pf : Platform)

/-- The first problem of one value. -/
def check (p : ParamMeta) (name value : Str) : Option Str :=
  let problem := fun reason => some (lit "Parameter " ++ name ++ reason)
  if p.options ≠ [] then
    if value ∈ p.options then none
    else problem (lit ": value '" ++ value ++ lit "' not in " ++ pf.reprList p.options)
  else if p.input_type = .number then
    match int pf.digits value with
    | none => problem (lit ": '" ++ value ++ lit "' is not a number")
    | some number =>
      match p.min_value.filter (number < ·), p.max_value.filter (· < number) with
      | some low, _ => problem (lit ": " ++ intText number ++ lit " is below the minimum " ++ intText low)
      | none, some high => problem (lit ": " ++ intText number ++ lit " is above the maximum " ++ intText high)
      | none, none => none
  else
    match unsafeTextChars.find? (· ∈ value) with
    | some bad => problem (lit " contains unsupported character " ++ reprChar bad)
    | none =>
      if (p.validation.any (fun pattern => pattern ≠ [] && !pf.fullmatch pattern value)) then
        problem (lit ": '" ++ value ++ lit "' is not in the expected format")
      else none

/-- The first problem, or none. Unknown names are never substituted and not looked at. -/
def validate (check_id : Str) (parameters : List (Str × Str)) : Option Str :=
  parameters.findSome? (fun e =>
    (Dict.get (ts.allowed check_id) e.1).bind (fun p => check pf p e.1 e.2))

/-- What is put into the statements: a number in its plain ASCII form. -/
def canonical (p : ParamMeta) (value : Str) : Str :=
  if p.input_type = .number ∧ p.options = [] then ((int pf.digits value).map intText).getD value else value

/-- `_render` -/
def render (statements : List Str) (check_id : Str) (parameters : Parameters) : Except Str (List Str) :=
  let params := ts.merged check_id parameters
  match ts.validate pf check_id params with
  | some error => .error error
  | none =>
    let values := (ts.allowed check_id).filterMap (fun e =>
      (Dict.get params e.1).map (fun v => ('{' :: e.1 ++ ['}'], canonical pf e.2 v)))
    .ok (statements.map (Placeholder.substitute values))

def statements (check_id : Str) (parameters : Parameters) : Except Str (List Str) :=
  match ts.get check_id with
  | some t => ts.render pf t.statements check_id parameters
  | none => .ok []

def verify_statements (check_id : Str) (parameters : Parameters) : Except Str (List Str) :=
  match ts.get check_id with
  | some t => ts.render pf t.verify_statements check_id parameters
  | none => .ok []

end TemplateSet

/-! ## Placeholders that are left over -/

def nameChar (c : Char) : Bool := c.isUpper || c.isDigit || c = '_'

/-- `PLACEHOLDER_RE` at the start of a text. -/
def placeholderAt : Str → Option Str
  | '{' :: c :: s =>
    if c.isUpper then
      match s.dropWhile nameChar with
      | '}' :: _ => some ('{' :: c :: s.takeWhile nameChar ++ ['}'])
      | _ => none
    else none
  | _ => none

/-- `PLACEHOLDER_RE.findall`, which meets no two matches that overlap. -/
def placeholders (s : Str) : List Str := s.tails.filterMap placeholderAt

/-- `sorted({...})` -/
def sortedTexts (names : List Str) : List Str :=
  (names.foldl (fun out n => if n ∈ out then out else out ++ [n]) []).mergeSort
    (fun a b => decide (String.ofList a ≤ String.ofList b))

end BenchmarkTemplates
