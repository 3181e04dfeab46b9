import Ngcorion.Hardening.CliTemplates
import Ngcorion.Hardening.ParamSecurity

/-!
# Parameters of device command lines

`substitute_parameters` puts the operator's values into the commands of a Cisco
IOS or FortiGate template. The device reads what it is sent line by line, except
for the text of a banner, which runs to the next delimiter.
-/
namespace CliParameters

open Text Placeholder ParamSecurity CliTemplates

inductive Family where
  | cisco | fortinet

/-- `input_type` of a parameter's metadata -/
inductive InputType where
  | password | text | textarea | number | ip | select
  deriving DecidableEq

/-- `PARAMETER_REGISTRY` -/
def parameterRegistry : List (Str × InputType) :=
  [(lit "STRONG_SECRET", .password), (lit "BANNER_TEXT", .textarea), (lit "ACL_NAME", .text),
   (lit "METHOD_NAME", .text), (lit "HOSTNAME", .text), (lit "DOMAIN_NAME", .text), (lit "SYSLOG_SERVER", .ip),
   (lit "NTP_SERVER", .ip), (lit "METHOD_TYPE", .select), (lit "MODULUS", .select), (lit "TIMEOUT_MIN", .number),
   (lit "TIMEOUT_SEC", .number), (lit "RETRIES", .number), (lit "SIZE", .number)]

/-- `FORTIGATE_PARAMETER_REGISTRY` -/
def fortigateParameterRegistry : List (Str × InputType) :=
  [(lit "DNS_PRIMARY", .ip), (lit "HOSTNAME", .text), (lit "ADMIN_TIMEOUT", .number),
   (lit "ADMIN_LOCKOUT_THRESHOLD", .number), (lit "ADMIN_LOCKOUT_DURATION", .number), (lit "NTP_SERVER_1", .text),
   (lit "NTP_SERVER_2", .text), (lit "HA_MONITOR_INTERFACE", .text), (lit "DNSFILTER_PROFILE", .text),
   (lit "APP_LIST", .text), (lit "AUTH_LOCKOUT_THRESHOLD", .number), (lit "AUTH_LOCKOUT_DURATION", .number),
   (lit "FAZ_SERVER", .ip)]

/-! ## Placeholders -/

def isNameStart (c : Char) : Bool := c.isUpper || c = '_'

def isNameChar (c : Char) : Bool := isNameStart c || c.isDigit

/-- The length of a name with its closing bracket, where one begins. -/
def nameLength (close : Char) (s : Str) : Option Nat :=
  let name := s.takeWhile isNameChar
  if s.head?.any isNameStart ∧ (s.drop name.length).head? = some close then some (name.length + 1) else none

/-- `PARAM_PATTERN` and `PLACEHOLDER_PATTERN`: `<NAME>` and a name in braces. -/
def holeAt : Str → Option Nat
  | '<' :: s => nameLength '>' s
  | '{' :: s => nameLength '}' s
  | _ => none

def angle (name : Str) : Str := '<' :: (name ++ ['>'])

def brace (name : Str) : Str := '{' :: (name ++ ['}'])

/-- The name in a placeholder. -/
def nameOf (pat : Str) : Str := pat.tail.dropLast

def extract_parameters (text : Str) : List Str :=
  let names := (pieces holeAt text).filterMap (fun p => match p with
    | .hole pat => some (nameOf pat)
    | .char _ => none)
  names.dedup.mergeSort

/-! ## Substitution -/

section
variable (dg : Digits)

def get_parameter_metadata (name : Str) : Option InputType := Dict.get parameterRegistry name

def get_fortigate_parameter_metadata (name : Str) : Option InputType := Dict.get fortigateParameterRegistry name

/-- `_validated_value` of the Cisco parser -/
def ciscoValue (name value : Str) : Checked :=
  match get_parameter_metadata name with
  | some .textarea => validate_delimited_text value name '^'
  | some .number => validate_integer dg value name none none
  | _ => validate_cli_line value name

/-- `_validated_value` of the FortiGate parser -/
def fortigateValue (name value : Str) : Checked :=
  match get_fortigate_parameter_metadata name with
  | some .number => validate_integer dg value name none none
  | _ => validate_cli_line value name

def _validated_value : Family → Str → Str → Checked
  | .cisco => ciscoValue dg
  | .fortinet => fortigateValue dg

/-- `MINIMUM_PARAMETER_VALUES` -/
def minimumParameterValues : List (Str × Nat × Str) :=
  [(lit "MODULUS", 2048, lit "CIS requires an RSA key of at least 2048 bits for SSH")]

def validate_parameter_values (parameters : List (Str × Str)) : Except Str Unit :=
  minimumParameterValues.forM (fun (name, minimum, reason) =>
    match Dict.get parameters name with
    | none => .ok ()
    | some value =>
      let raw := strip value
      if raw = [] then .ok ()
      else if !raw.all dg.isdigit then .error (name ++ lit " must be a number, got '" ++ raw ++ lit "'")
      else match int dg raw with
        | none => .error (lit "invalid literal for int() with base 10: '" ++ raw ++ lit "'")
        | some n =>
          if n < minimum then
            .error (name ++ lit " must be at least " ++ decimal minimum ++ lit " (" ++ reason ++ lit "), got " ++ raw)
          else .ok ())

/-- Put the values in, one name after the other, in both forms of the placeholder. -/
def substituteValues (validated : Str → Str → Checked) (parameters : List (Str × Str)) (cmd : Str) : Checked :=
  parameters.foldlM (fun s e => (validated e.1 e.2).map (fun safe => replace (brace e.1) safe (replace (angle e.1) safe s)))
    cmd

/-- One command: the names it needs are there, and the values are put in. -/
def substituteCommand (missing : Str → Bool) (validated : Str → Str → Checked) (parameters : List (Str × Str))
    (cmd : Str) : Checked :=
  let missing_params := (extract_parameters cmd).filter missing
  if missing_params ≠ [] then .error (lit "Missing required parameters: " ++ join (lit ", ") missing_params)
  else substituteValues validated parameters cmd

/-- `RemediationParser.substitute_parameters`: a blank value counts as missing. -/
def ciscoSubstitute (commands : List Str) (parameters : List (Str × Str)) : Except Str (List Str) := do
  validate_parameter_values dg parameters
  commands.mapM (substituteCommand
    (fun p => match Dict.get parameters p with
      | none => true
      | some value => strip value = [])
    (ciscoValue dg) parameters)

/-- `FortiGateRemediationParser.substitute_parameters` -/
def fortigateSubstitute (commands : List Str) (parameters : List (Str × Str)) : Except Str (List Str) :=
  commands.mapM (substituteCommand (fun p => (Dict.get parameters p).isNone) (fortigateValue dg) parameters)

def substitute_parameters : Family → List Str → List (Str × Str) → Except Str (List Str)
  | .cisco => ciscoSubstitute dg
  | .fortinet => fortigateSubstitute dg

def templates : Family → List (Str × List Str)
  | .cisco => commandTemplates
  | .fortinet => fortigateCommandTemplates

/-! ## The device -/

inductive Mode where
  | line | text | after
  deriving DecidableEq

/-- The commands read so far, and the one that is being read. -/
structure Reader where
  done : List Str
  current : Str
  mode : Mode
  deriving DecidableEq

/-- A line end ends a command, but not inside the text of a banner. -/
def readChar (r : Reader) (c : Char) : Reader :=
  match r.mode with
  | .text => ⟨r.done, r.current ++ [c], if c = '^' then .after else .text⟩
  | .line =>
    if isNewline c then ⟨r.done ++ [r.current], [], .line⟩
    else ⟨r.done, r.current ++ [c], if c = '^' ∧ startsWith (lit "banner ") r.current then .text else .line⟩
  | .after =>
    if isNewline c then ⟨r.done ++ [r.current], [], .line⟩ else ⟨r.done, r.current ++ [c], .after⟩

def receive (r : Reader) (s : Str) : Reader := s.foldl readChar r

/-- What is sent: each command with the key that enters it. -/
def stream (commands : List Str) : Str := commands.flatMap (fun cmd => cmd ++ ['\n'])

/-- The values as they are put in, by placeholder. -/
def values (family : Family) (parameters : List (Str × Str)) : List (Str × Str) :=
  parameters.flatMap (fun e =>
    let safe := (_validated_value dg family e.1 e.2).toOption.getD []
    [(angle e.1, safe), (brace e.1, safe)])

/-- A template command with each placeholder replaced by its own value. -/
def filled (family : Family) (parameters : List (Str × Str)) (cmd : Str) : Str :=
  fill (values dg family parameters) (pieces holeAt cmd)

/-- The device executes one command for each template command: the template's
command with each placeholder replaced by its own value. -/
def OneCommandEach (family : Family) (parameters : List (Str × Str)) (commands sent : List Str) : Prop :=
  receive ⟨[], [], .line⟩ (stream sent) = ⟨commands.map (filled dg family parameters), [], .line⟩

/-- The text of a placeholder appears outside the template's own placeholders when its turn comes. -/
def substitutedAgain (family : Family) (parameters : List (Str × Str)) (cmd : Str) : Bool :=
  strays (values dg family parameters) (pieces holeAt cmd)

end

end CliParameters
