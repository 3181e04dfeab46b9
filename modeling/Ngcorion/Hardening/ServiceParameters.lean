import Ngcorion.Hardening.ShellParameters
import Ngcorion.Sed

/-!
# Parameters of MongoDB and Apache hardening commands

Every parameter has a check of its own, which is to make its value harmless wherever
it is put in: as a bare word of the shell, or in the single quotes of a `sed` script. The
checks look at the shell. In a script, a line end that the shell takes as data ends the
text of `a`, and a slash ends a part of `s`.
-/
namespace ServiceParameters

open Text Placeholder ParamSecurity Shell ShellFill ShellParameters

/-! ## Checks -/

inductive InputType where
  | text | textarea | number | ip | select

/-- The fields of a parameter's metadata that its check reads. -/
structure ParameterMetadata where
  input_type : InputType
  options : Option (List Str) := none
  min_value : Option Int := none
  max_value : Option Int := none

/-- `MONGODB_PARAMETER_REGISTRY` -/
def mongodbParameterRegistry : List (Str × ParameterMetadata) :=
  [(lit "MONGO_SERVICE_USER", ⟨.text, none, none, none⟩), (lit "MONGO_PORT", ⟨.number, none, some 1024, some 65535⟩),
   (lit "MONGO_BIND_IP", ⟨.ip, none, none, none⟩), (lit "TLS_CERT_FILE", ⟨.text, none, none, none⟩),
   (lit "TLS_CA_FILE", ⟨.text, none, none, none⟩),
   (lit "TLS_MODE", ⟨.select, some [lit "requireTLS", lit "allowTLS", lit "preferTLS"], none, none⟩),
   (lit "AUDIT_LOG_PATH", ⟨.text, none, none, none⟩),
   (lit "AUDIT_FORMAT", ⟨.select, some [lit "JSON", lit "BSON"], none, none⟩),
   (lit "AUDIT_FILTER", ⟨.textarea, none, none, none⟩), (lit "KEYFILE_PATH", ⟨.text, none, none, none⟩)]

/-- `APACHE_PARAMETER_REGISTRY` -/
def apacheParameterRegistry : List (Str × ParameterMetadata) :=
  [(lit "SSL_PROTOCOLS", ⟨.text, none, none, none⟩), (lit "SSL_CIPHER_SUITE", ⟨.text, none, none, none⟩),
   (lit "HSTS_MAX_AGE", ⟨.number, none, some 86400, some 63072000⟩),
   (lit "X_FRAME_OPTIONS", ⟨.select, some [lit "SAMEORIGIN", lit "DENY"], none, none⟩),
   (lit "SSL_CERT_FILE", ⟨.text, none, none, none⟩), (lit "SSL_KEY_FILE", ⟨.text, none, none, none⟩),
   (lit "RESTRICTED_EXTENSIONS", ⟨.text, none, none, none⟩), (lit "LISTEN_IP", ⟨.ip, none, none, none⟩)]

inductive Product where
  | mongodb | apache

/-- `_SHELL_TEXT_PARAMS` of the MongoDB templates -/
def shellTextParams : Product → List Str
  | .mongodb => [lit "AUDIT_FILTER"]
  | .apache => []

/-- The check that the metadata asks for, or else the last one. -/
def checkedBy (dg : Digits) (registry : List (Str × ParameterMetadata)) (extra : List Char) (param_name param_value : Str) :
    Checked :=
  match Dict.get registry param_name with
  | some ⟨.number, _, min_value, max_value⟩ => validate_integer dg param_value param_name min_value max_value
  | some ⟨.select, some (option :: options), _, _⟩ => validate_select param_value param_name (option :: options)
  | _ => reject_shell_breakout_chars param_value param_name extra

section
variable (dg : Digits)

/-- `_validated_value` of the MongoDB templates -/
def mongodbValue (param_name param_value : Str) : Checked :=
  if param_name ∈ [lit "KEYFILE_PATH", lit "TLS_CERT_FILE", lit "TLS_CA_FILE", lit "AUDIT_LOG_PATH"] then
    validate_path param_value param_name
  else if param_name ∈ [lit "MONGO_SERVICE_USER"] then validate_identifier param_value param_name
  else if param_name ∈ [lit "MONGO_BIND_IP"] then validate_host_list param_value param_name
  else if param_name ∈ shellTextParams .mongodb then escape_single_quoted_shell_literal param_value param_name ['"']
  else checkedBy dg mongodbParameterRegistry [] param_name param_value

/-- `_validated_value` of the Apache templates -/
def apacheValue (param_name param_value : Str) : Checked :=
  if param_name ∈ [lit "SSL_CERT_FILE", lit "SSL_KEY_FILE"] then validate_path param_value param_name
  else if param_name ∈ [lit "LISTEN_IP"] then validate_host_list param_value param_name
  else
    checkedBy dg apacheParameterRegistry (if param_name = lit "RESTRICTED_EXTENSIONS" then ['"'] else [])
      param_name param_value

def _validated_value : Product → Str → Str → Checked
  | .mongodb => mongodbValue dg
  | .apache => apacheValue dg

/-! ## Commands -/

/-- The fields of a template that its commands are made from. -/
structure MongoDBHardeningTemplate where
  commands : List Str
  verify_commands : List Str
  deriving DecidableEq

structure ApacheHardeningTemplate where
  commands_debian : List Str
  commands_rhel : List Str
  verify_commands_debian : List Str
  verify_commands_rhel : List Str

def substituteAll (product : Product) (commands : List Str) (parameters : List (Str × Str)) : Except Str (List Str) :=
  commands.mapM (substituteBraces (_validated_value dg product) parameters)

section
variable (registry : List (Str × MongoDBHardeningTemplate)) (check_id : Str) (parameters : List (Str × Str))

/-- The registry is `MONGODB_HARDENING_TEMPLATES`. -/
def get_mongodb_template_commands : Except Str (List Str) :=
  match Dict.get registry check_id with
  | none => .ok []
  | some template => substituteAll dg .mongodb template.commands parameters

def get_mongodb_verify_commands : Except Str (List Str) :=
  match Dict.get registry check_id with
  | none => .ok []
  | some template => substituteAll dg .mongodb template.verify_commands parameters

end

inductive DistroFamily where
  | debian | rhel

def get_distro_family (distro_id : Str) : DistroFamily :=
  if distro_id ∈ [lit "ubuntu", lit "debian"] then .debian
  else if distro_id ∈ [lit "rocky", lit "rhel", lit "centos", lit "fedora", lit "almalinux"] then .rhel
  else .debian

def _substitute_parameters (commands : List Str) (parameters : List (Str × Str)) : Except Str (List Str) :=
  if parameters = [] then .ok commands else substituteAll dg .apache commands parameters

section
variable (registry : List (Str × ApacheHardeningTemplate)) (check_id distro_id : Str) (parameters : List (Str × Str))

def ApacheHardeningTemplate.commands (template : ApacheHardeningTemplate) : DistroFamily → List Str
  | .debian => template.commands_debian
  | .rhel => template.commands_rhel

def ApacheHardeningTemplate.verify_commands (template : ApacheHardeningTemplate) : DistroFamily → List Str
  | .debian => template.verify_commands_debian
  | .rhel => template.verify_commands_rhel

/-- The registry is `APACHE_HARDENING_TEMPLATES`. -/
def get_apache_template_commands_for_distro : Except Str (List Str) :=
  match Dict.get registry check_id with
  | none => .ok []
  | some template => _substitute_parameters dg (template.commands (get_distro_family distro_id)) parameters

def get_apache_verify_commands_for_distro : Except Str (List Str) :=
  match Dict.get registry check_id with
  | none => .ok []
  | some template => _substitute_parameters dg (template.verify_commands (get_distro_family distro_id)) parameters

end

/-! ## Where a parameter may stand -/

/-- What the shell reads where the value is put in. -/
def literalOf (product : Product) (name value : Str) : Str :=
  if name ∈ shellTextParams product then value else textOf (_validated_value dg product) name value

/-- Inside the single quotes of a word. -/
def singlePlace (c : Ctrl) : Bool := c.mode = .single && !inQuotes c && c.redir = .none && c.word = .word

/-- Inside double quotes. -/
def doublePlace (c : Ctrl) : Bool := c.mode = .base && inQuotes c && c.redir = .none

/-- A parameter at its place: safe characters in a bare word, no single quote in
single quotes unless the check escapes it, and nothing special in double quotes. -/
def placed (product : Product) (c : Ctrl) (name value : Str) : Bool :=
  let text := literalOf dg product name value
  (bare c && text ≠ [] && text.all isSafe) ||
    (singlePlace c && (name ∈ shellTextParams product || '\'' ∉ text)) ||
    (doublePlace c && name ∉ shellTextParams product && text.all (· ∉ doubleSpecial))

/-- The `sed` scripts of the command have the commands of the template's scripts, with
the values as literal text at the places of their own placeholders. -/
def ScriptsStay (product : Product) (parameters : List (Str × Str)) (cmd sent : Str) : Prop :=
  (Sed.scripts (structureOf (sent.map .char)).1).map Sed.structureOf =
    ((Sed.scripts (structureOf (template parameters cmd)).1).map Sed.structureOf).map
      (fun s => (Sed.fillEvents (lookup parameters (literalOf dg product)) s.1, s.2))

instance (product : Product) (parameters : List (Str × Str)) (cmd sent : Str) :
    Decidable (ScriptsStay dg product parameters cmd sent) := inferInstanceAs (Decidable (_ = _))

/-- Values stay data for the shell and for `sed`. -/
def StayData (product : Product) (parameters : List (Str × Str)) (cmd sent : Str) : Prop :=
  StaysData (literalOf dg product) parameters cmd sent ∧ ScriptsStay dg product parameters cmd sent

instance (product : Product) (parameters : List (Str × Str)) (cmd sent : Str) :
    Decidable (StayData dg product parameters cmd sent) := inferInstanceAs (Decidable (_ ∧ _))

/-- No placeholder's text is substituted again, every parameter is where it may stand,
and in a script its value keeps to the text or part that holds it. -/
def fits (product : Product) (parameters : List (Str × Str)) (cmd : Str) : Bool :=
  !substitutedAgain (_validated_value dg product) parameters cmd && wellPlaced (placed dg product) parameters cmd &&
    Sed.scriptsFit (lookup parameters (literalOf dg product)) (structureOf (template parameters cmd)).1

/-! ## Parameters at their places -/

variable {dg}

theorem shellText_ok {product : Product} {name value text : Str} (h : _validated_value dg product name value = .ok text)
    (hn : name ∈ shellTextParams product) : text = value.flatMap escapeBackslash := by
  cases product with
  | apache => simp [shellTextParams] at hn
  | mongodb =>
    simp only [shellTextParams, List.mem_singleton] at hn
    subst hn
    have hvalue : mongodbValue dg (lit "AUDIT_FILTER") value =
        escape_single_quoted_shell_literal value (lit "AUDIT_FILTER") ['"'] := by
      rw [mongodbValue, if_neg (by with_unfolding_all decide), if_neg (by with_unfolding_all decide), if_neg
        (by with_unfolding_all decide),
        if_pos (by with_unfolding_all decide)]
    rw [_validated_value, hvalue] at h
    have hnext := (deny_ok (reject_nul_ok (check_length_ok h)).2).2
    cases hnext
    rfl

/-- What is put in is what the shell is to read, unless the check escapes it. -/
theorem inserted_eq {product : Product} {name value text : Str} (h : _validated_value dg product name value = .ok text)
    (hn : name ∉ shellTextParams product) : literalOf dg product name value = text := by
  simp [literalOf, hn, textOf, h, Except.toOption]

theorem escape_unquoted {value : Str} (h : '\'' ∉ value) : value.flatMap escapeBackslash = value := by
  induction value with
  | nil => rfl
  | cons c value ih =>
    have hc : c ≠ '\'' := fun hc => h (by simp [hc])
    have hrest : '\'' ∉ value := fun hmem => h (by simp [hmem])
    simp [escapeBackslash, hc, ih hrest]

theorem inserted_unquoted {product : Product} {name value text : Str}
    (h : _validated_value dg product name value = .ok text) (hq : '\'' ∉ literalOf dg product name value) :
    text = literalOf dg product name value := by
  by_cases hn : name ∈ shellTextParams product
  · have hliteral : literalOf dg product name value = value := by simp [literalOf, hn]
    rw [hliteral] at hq ⊢
    rw [shellText_ok h hn, escape_unquoted hq]
  · exact (inserted_eq h hn).symm

theorem stands_bare {product : Product} {c : Ctrl} {name value text : Str}
    (h : _validated_value dg product name value = .ok text) (hb : bare c = true)
    (hne : literalOf dg product name value ≠ []) (hsafe : (literalOf dg product name value).all isSafe = true) (pat : Str) :
    Stands c pat text (literalOf dg product name value) := by
  have hall : ∀ x ∈ literalOf dg product name value, isSafe x = true := List.all_eq_true.mp hsafe
  have hq : '\'' ∉ literalOf dg product name value := by
    intro hmem
    have hs := hall _ hmem
    simp [isSafe, isNameChar, Char.isAlphanum, isAlpha_eq, isUpper_eq, isLower_eq, Char.isDigit] at hs
  rw [inserted_unquoted h hq]
  exact stands_safe ((bare_iff c).mp hb) pat _ hne hall

theorem stands_single {product : Product} {c : Ctrl} {name value text : Str}
    (h : _validated_value dg product name value = .ok text) (hc : singlePlace c = true)
    (hq : name ∈ shellTextParams product ∨ '\'' ∉ literalOf dg product name value) (pat : Str) :
    Stands c pat text (literalOf dg product name value) := by
  simp only [singlePlace, Bool.and_eq_true, decide_eq_true_eq, Bool.not_eq_true'] at hc
  obtain ⟨⟨⟨hm, hi⟩, hr⟩, hw⟩ := hc
  have hquoted : Quoted c := ⟨hm, hi, hr, hw⟩
  by_cases hn : name ∈ shellTextParams product
  · have hliteral : literalOf dg product name value = value := by simp [literalOf, hn]
    rw [shellText_ok h hn, hliteral]
    exact hquoted.stands_escaped pat value
  · have hnone := hq.resolve_left hn
    rw [inserted_unquoted h hnone]
    exact hquoted.stands pat _ hnone

theorem stands_doublePlace {product : Product} {c : Ctrl} {name value text : Str}
    (h : _validated_value dg product name value = .ok text) (hc : doublePlace c = true)
    (hn : name ∉ shellTextParams product) (hd : (literalOf dg product name value).all (· ∉ doubleSpecial) = true) (pat : Str) :
    Stands c pat text (literalOf dg product name value) := by
  simp only [doublePlace, Bool.and_eq_true, decide_eq_true_eq] at hc
  obtain ⟨⟨hm, hi⟩, hr⟩ := hc
  rw [← inserted_eq h hn]
  exact stands_double hm hi hr pat _ (by simpa using hd)

theorem allowed_placed (product : Product) :
    Allowed (_validated_value dg product) (literalOf dg product) (placed dg product) := by
  intro c name value text h hp pat
  simp only [placed, Bool.or_eq_true, Bool.and_eq_true, decide_eq_true_eq] at hp
  rcases hp with (⟨⟨hb, hne⟩, hsafe⟩ | ⟨hs, hq⟩) | ⟨⟨hd, hn⟩, hall⟩
  · exact stands_bare h hb hne hsafe pat
  · exact stands_single h hs hq pat
  · exact stands_doublePlace h hd hn hall pat

/-! ## Parameters stay data -/

theorem command_stays_data {product : Product} {parameters : List (Str × Str)} {cmd sent : Str}
    (h : substituteBraces (_validated_value dg product) parameters cmd = .ok sent)
    (hf : fits dg product parameters cmd = true) : StayData dg product parameters cmd sent := by
  simp only [fits, Bool.and_eq_true, Bool.not_eq_true'] at hf
  obtain ⟨⟨hagain, hplaced⟩, hscripts⟩ := hf
  have hshell := staysData (allowed_placed product) h hagain hplaced
  refine ⟨hshell, ?_⟩
  rw [ScriptsStay, hshell]
  exact Sed.structures_fill hscripts

theorem commands_stay_data {product : Product} {parameters : List (Str × Str)} {commands sent : List Str}
    (h : substituteAll dg product commands parameters = .ok sent)
    (hf : ∀ cmd ∈ commands, fits dg product parameters cmd = true) :
    List.Forall₂ (StayData dg product parameters) commands sent := by
  have hall := mapM_ok h
  clear h
  induction hall with
  | nil => exact .nil
  | cons hcmd _ ih =>
    exact .cons (command_stays_data hcmd (hf _ List.mem_cons_self)) (ih (fun cmd hmem => hf cmd (by simp [hmem])))

/-- Without parameters the commands are returned as they are, which is what the loop gives. -/
theorem substitute_parameters_eq (commands : List Str) (parameters : List (Str × Str)) :
    _substitute_parameters dg commands parameters = substituteAll dg .apache commands parameters := by
  unfold _substitute_parameters
  split
  · next hnil =>
    subst hnil
    induction commands with
    | nil => rfl
    | cons cmd commands ih =>
      rw [substituteAll] at ih ⊢
      rw [List.mapM_cons, ← ih]
      rfl
  · rfl

end

/-- The commands that are sent, to apply a template of either product or to verify it,
keep the structure of their template commands, in the shell and in `sed`, when these fit. -/
theorem service_parameters_stay_data (dg : Digits) (parameters : List (Str × Str)) (check_id : Str) (sent : List Str) :
    (∀ registry template, Dict.get registry check_id = some template →
      (get_mongodb_template_commands dg registry check_id parameters = .ok sent →
        (∀ cmd ∈ template.commands, fits dg .mongodb parameters cmd = true) →
        List.Forall₂ (StayData dg .mongodb parameters) template.commands sent) ∧
      (get_mongodb_verify_commands dg registry check_id parameters = .ok sent →
        (∀ cmd ∈ template.verify_commands, fits dg .mongodb parameters cmd = true) →
        List.Forall₂ (StayData dg .mongodb parameters) template.verify_commands sent)) ∧
    (∀ registry template distro_id, Dict.get registry check_id = some template →
      (get_apache_template_commands_for_distro dg registry check_id distro_id parameters = .ok sent →
        (∀ cmd ∈ template.commands (get_distro_family distro_id), fits dg .apache parameters cmd = true) →
        List.Forall₂ (StayData dg .apache parameters) (template.commands (get_distro_family distro_id)) sent) ∧
      (get_apache_verify_commands_for_distro dg registry check_id distro_id parameters = .ok sent →
        (∀ cmd ∈ template.verify_commands (get_distro_family distro_id), fits dg .apache parameters cmd = true) →
        List.Forall₂ (StayData dg .apache parameters) (template.verify_commands (get_distro_family distro_id)) sent)) := by
  constructor
  · intro registry template ht
    simp only [get_mongodb_template_commands, get_mongodb_verify_commands, ht]
    exact ⟨commands_stay_data, commands_stay_data⟩
  · intro registry template distro_id ht
    simp only [get_apache_template_commands_for_distro, get_apache_verify_commands_for_distro, ht,
      substitute_parameters_eq]
    exact ⟨commands_stay_data, commands_stay_data⟩

/-- `MONGO-L2-016`: the filter is in the text of an `a` command. -/
def auditFilter : MongoDBHardeningTemplate where
  commands :=
    [lit "cp -f /etc/mongod.conf /etc/mongod.conf.bak",
     lit "grep -q '^auditLog:' /etc/mongod.conf || printf '\\nauditLog:\\n  destination: file\\n" ++
       lit "  format: JSON\\n  path: /var/log/mongodb/auditLog.json\\n' >> /etc/mongod.conf",
     lit "grep -qE '^[[:space:]]+filter[[:space:]]*:' /etc/mongod.conf || " ++
       lit "sed -i '/^auditLog:/a\\  filter: \"{AUDIT_FILTER}\"' /etc/mongod.conf",
     lit "systemctl restart mongod 2>/dev/null || service mongod restart 2>/dev/null || true"]
  verify_commands :=
    [lit "grep -qE '^[[:space:]]+filter[[:space:]]*:' /etc/mongod.conf && echo 'PASS' || echo 'FAIL'"]

/-- The commands of a template, all of which are sent with the filter in its place. -/
def auditFilterSent (filter : Str) : List Str :=
  auditFilter.commands.map (replace (brace (lit "AUDIT_FILTER")) filter)

/-- A filter on one line stays data. -/
theorem one_line_stays_data :
    get_mongodb_template_commands asciiDigits [(lit "MONGO-L2-016", auditFilter)] (lit "MONGO-L2-016")
      [(lit "AUDIT_FILTER", lit "atype: authenticate")] = .ok (auditFilterSent (lit "atype: authenticate")) ∧
    List.Forall₂ (StayData asciiDigits .mongodb [(lit "AUDIT_FILTER", lit "atype: authenticate")]) auditFilter.commands
      (auditFilterSent (lit "atype: authenticate")) := by
  have hsent : get_mongodb_template_commands asciiDigits [(lit "MONGO-L2-016", auditFilter)] (lit "MONGO-L2-016")
      [(lit "AUDIT_FILTER", lit "atype: authenticate")] = .ok (auditFilterSent (lit "atype: authenticate")) := by
    decide +kernel
  have hget : Dict.get [(lit "MONGO-L2-016", auditFilter)] (lit "MONGO-L2-016") = some auditFilter := by decide +kernel
  exact ⟨hsent, ((service_parameters_stay_data asciiDigits _ _ _).1 _ _ hget).1 hsent (by decide +kernel)⟩

/-- The second line of a filter is a command of the script: `1e reboot` runs `reboot`. -/
theorem second_line_runs :
    get_mongodb_template_commands asciiDigits [(lit "MONGO-L2-016", auditFilter)] (lit "MONGO-L2-016")
      [(lit "AUDIT_FILTER", lit "x\n1e reboot #")] = .ok (auditFilterSent (lit "x\n1e reboot #")) ∧
    (auditFilterSent (lit "x\n1e reboot #"))[2]? =
      some (lit "grep -qE '^[[:space:]]+filter[[:space:]]*:' /etc/mongod.conf || " ++
        lit "sed -i '/^auditLog:/a\\  filter: \"x\n1e reboot #\"' /etc/mongod.conf") ∧
    ¬ List.Forall₂ (StayData asciiDigits .mongodb [(lit "AUDIT_FILTER", lit "x\n1e reboot #")]) auditFilter.commands
      (auditFilterSent (lit "x\n1e reboot #")) := by
  refine ⟨by decide +kernel, by decide +kernel, by decide +kernel⟩

end ServiceParameters
