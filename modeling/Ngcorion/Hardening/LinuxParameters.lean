import Ngcorion.Hardening.ShellParameters

/-!
# Parameters of Linux hardening commands

A template is looked up and adapted to the distribution. `_substitute_params`
then quotes each value for a shell word and puts it in place of its placeholder,
whatever stands around the placeholder; the texts of here-documents are put in as
they are. The values stay data where a quoted word may stand, and elsewhere when
they are plain.
-/
namespace LinuxParameters

open Text Placeholder ParamSecurity Shell ShellFill ShellParameters

/-! ## Distributions -/

def isDebian (distro_id : Str) : Bool := distro_id ∈ [lit "ubuntu", lit "debian"]

structure PamPaths where
  password : Str
  auth : Str

def get_distro_pam_paths (distro_id : Str) : PamPaths :=
  if isDebian distro_id then ⟨lit "/etc/pam.d/common-password", lit "/etc/pam.d/common-auth"⟩
  else ⟨lit "/etc/pam.d/system-auth", lit "/etc/pam.d/password-auth"⟩

/-- `service_map` -/
def serviceMap : List ((Str × Bool) × Str) :=
  [((lit "cron", true), lit "cron"), ((lit "cron", false), lit "crond"),
   ((lit "httpd", true), lit "apache2"), ((lit "httpd", false), lit "httpd"),
   ((lit "chrony", true), lit "chrony"), ((lit "chrony", false), lit "chronyd"),
   ((lit "sshd", true), lit "ssh"), ((lit "sshd", false), lit "sshd"),
   ((lit "smb", true), lit "smbd"), ((lit "smb", false), lit "smb")]

def get_distro_service_name (service distro_id : Str) : Str :=
  (Dict.get serviceMap (service, isDebian distro_id)).getD service

/-- `_SYSTEMCTL_VERBS` -/
def systemctlVerbs : List Str :=
  [lit "start", lit "stop", lit "restart", lit "reload", lit "try-restart", lit "reload-or-restart", lit "enable",
   lit "disable", lit "mask", lit "unmask", lit "is-enabled", lit "is-active", lit "status"]

/-- One or more characters of a class, and what follows them. -/
def many (p : Char → Bool) (s : Str) : Option Str := if s.head?.any p then some (s.dropWhile p) else none

section
variable (u : Unicode)

/-- What follows the options of `systemctl`, at most so many of them. -/
def afterFlags : Nat → Str → Str
  | 0, s => s
  | n + 1, s =>
    if startsWith (lit "--") s then
      match (many (fun c => u.word c || c ∈ ['=', '.', '-']) (s.drop 2)).bind (many isSpace) with
      | some rest => afterFlags n rest
      | none => s
    else s

/-- `_SERVICE_ARG_RE`: the text up to the unit argument of a `systemctl` call, and the unit. -/
def serviceArgAt (s : Str) : Option (Str × Str) := do
  let options ← if startsWith (lit "systemctl") s then many isSpace (s.drop 9) else none
  let call := afterFlags u options.length options
  let verb ← systemctlVerbs.find? (fun v => startsWith v call && (call.drop v.length).head?.any isSpace)
  let rest ← many isSpace (call.drop verb.length)
  let unit := rest.takeWhile (fun c => u.word c || c ∈ ['@', '.', ':', '-'])
  if unit = [] then none else some (s.take (s.length - rest.length), unit)

def remapFrom (distro_id : Str) : Nat → Str → Str
  | _, [] => []
  | skip + 1, _ :: s => remapFrom distro_id skip s
  | 0, c :: s =>
    match serviceArgAt u (c :: s) with
    | some (call, unit) =>
      call ++ get_distro_service_name unit distro_id ++ remapFrom distro_id (call.length + unit.length - 1) s
    | none => c :: remapFrom distro_id 0 s

def _remap_service_names (cmd distro_id : Str) : Str := remapFrom u distro_id 0 cmd

def get_distro_mac_paths (distro_id : Str) : List Str :=
  if isDebian distro_id then [lit "/etc/apparmor/", lit "/etc/apparmor.d/"] else [lit "/etc/selinux/"]

/-- The fields of a template that its commands are made from. -/
structure LinuxHardeningTemplate where
  commands : List Str
  verify_commands : List Str
  deriving DecidableEq

/-- One command for the distribution: its own PAM files and service names. -/
def commandForDistro (distro_id cmd : Str) : Str :=
  let pam_paths := get_distro_pam_paths distro_id
  let new_cmd :=
    if isDebian distro_id then cmd
    else replace (lit "/etc/pam.d/common-auth") pam_paths.auth
      (replace (lit "/etc/pam.d/common-password") pam_paths.password cmd)
  _remap_service_names u new_cmd distro_id

/-- The registry is `LINUX_HARDENING_TEMPLATES`. -/
def get_linux_hardening_template_for_distro (registry : List (Str × LinuxHardeningTemplate)) (check_id distro_id : Str) :
    Option LinuxHardeningTemplate :=
  (Dict.get registry check_id).map (fun template =>
    if check_id = lit "LNX-L2-4.2.3.4" then
      let mac_rules := join ['\n']
        ((get_distro_mac_paths distro_id).map (fun path => lit "-w " ++ path ++ lit " -p wa -k MAC-policy"))
      { commands :=
          [lit "cat > /etc/audit/rules.d/MAC-policy.rules << 'EOF'\n" ++ mac_rules ++ lit "\nEOF",
           lit "augenrules --load 2>/dev/null || service auditd reload"]
        verify_commands := template.verify_commands }
    else
      { commands := template.commands.map (commandForDistro u distro_id)
        verify_commands := template.verify_commands.map (commandForDistro u distro_id) })

end

/-! ## Substitution -/

/-- `_HEREDOC_PARAMS` -/
def heredocParams : List Str := [lit "MOTD_TEXT", lit "BANNER_TEXT", lit "SSH_BANNER_TEXT"]

/-- `_HEREDOC_DELIMITER` -/
def heredocDelimiter : Str := lit "EOF"

/-- The text that is put in for a value. -/
def inserted (name value : Str) : Checked :=
  if name ∈ heredocParams then validate_heredoc_body value name heredocDelimiter else .ok (quote_shell value)

def _substitute_params (cmd : Str) (parameters : List (Str × Str)) : Checked := substituteBraces inserted parameters cmd

section
variable (u : Unicode) (registry : List (Str × LinuxHardeningTemplate)) (check_id distro_id : Str)

def get_linux_template_commands_for_distro (parameters : List (Str × Str)) : Except Str (List Str) :=
  match get_linux_hardening_template_for_distro u registry check_id distro_id with
  | none => .ok []
  | some template => template.commands.mapM (fun cmd => _substitute_params cmd parameters)

def get_linux_verify_commands_for_distro (parameters : List (Str × Str)) : Except Str (List Str) :=
  match get_linux_hardening_template_for_distro u registry check_id distro_id with
  | none => .ok []
  | some template => template.verify_commands.mapM (fun cmd => _substitute_params cmd parameters)

end

/-! ## Where a parameter may stand -/

/-- A value that `shlex.quote` leaves as it is. -/
def plain (value : Str) : Bool := value ≠ [] && value.all isShellSafe

/-- Places where a plain value is literal text: in quotes, and on a line of a
here-document that is no delimiter. -/
def quotedPlace (c : Ctrl) : Bool :=
  (c.mode = .single && !inQuotes c && c.redir = .none && c.word = .word) ||
    (c.mode = .base && inQuotes c && c.redir = .none) ||
    (c.mode = .body && c.line = .off && c.pending.head?.any Here.quoted)

/-- The beginning of a line in a here-document with the quoted delimiter `EOF`. -/
def heredocPlace (c : Ctrl) : Bool :=
  c.mode = .body && c.line = .upTo heredocDelimiter && c.pending.head? = some ⟨heredocDelimiter, true, false⟩

/-- A parameter at its place: a quoted value in a bare word, a text in its
here-document, or a plain value. -/
def placed (c : Ctrl) (name value : Str) : Bool :=
  (bare c && (name ∉ heredocParams || plain value)) || (quotedPlace c && plain value) ||
    (heredocPlace c && name ∈ heredocParams)

/-! ## Parameters at their places -/

theorem plain_iff {value : Str} : plain value = true ↔ value ≠ [] ∧ ∀ c ∈ value, isSafe c = true := by
  simp only [plain, Bool.and_eq_true, decide_eq_true_eq, List.all_eq_true]
  rfl

/-- A plain value is put in as it is, whatever its parameter. -/
theorem inserted_plain {name value text : Str} (h : inserted name value = .ok text) (hp : plain value = true) :
    text = value := by
  unfold inserted at h
  split at h
  · exact (validate_heredoc_body_ok h).1
  · have hq : value ≠ [] ∧ value.all isShellSafe = true := by simpa [plain] using hp
    simp only [quote_shell, hq, ne_eq, not_false_eq_true, and_self, if_true, Except.ok.injEq] at h
    exact h.symm

theorem not_mem_of_safe {v : Str} (h : ∀ c ∈ v, isSafe c = true) {x : Char} (hx : isSafe x = false) : x ∉ v := by
  intro hmem
  simp [h x hmem] at hx

theorem stands_bare {c : Ctrl} (hc : bare c = true) {name value text : Str} (h : inserted name value = .ok text)
    (hn : name ∉ heredocParams) (pat : Str) : Stands c pat text value := by
  have hbare := (bare_iff c).mp hc
  simp only [inserted, hn, if_false, Except.ok.injEq] at h
  subst h
  by_cases hq : value ≠ [] ∧ value.all isShellSafe = true
  · rw [quote_shell, if_pos hq]
    exact stands_safe hbare pat value hq.1 (fun x hx => List.all_eq_true.mp hq.2 x hx)
  · rw [quote_shell, if_neg hq]
    exact stands_quoted hbare pat value

theorem stands_quotedPlace {c : Ctrl} (hc : quotedPlace c = true) {value : Str} (hp : plain value = true) (pat : Str) :
    Stands c pat value value := by
  obtain ⟨-, hsafe⟩ := plain_iff.mp hp
  simp only [quotedPlace, Bool.or_eq_true, Bool.and_eq_true, decide_eq_true_eq, Bool.not_eq_true'] at hc
  rcases hc with (⟨⟨⟨hm, hq⟩, hr⟩, hw⟩ | ⟨⟨hm, hq⟩, hr⟩) | ⟨⟨hm, hl⟩, hh⟩
  · exact Quoted.stands ⟨hm, hq, hr, hw⟩ pat value (not_mem_of_safe hsafe (by decide))
  · apply stands_double hm hq hr
    intro x hx hspecial
    have hnotSafe : ∀ y ∈ doubleSpecial, isSafe y = false := forall_mem_of_all (by decide)
    simpa [hnotSafe x hspecial] using hsafe x hx
  · cases hhead : c.pending.head? with
    | none => simp [hhead] at hh
    | some here =>
      have hquoted : here.quoted = true := by simpa [hhead] using hh
      exact Body.stands ⟨hm, hhead, hquoted⟩ hl pat value (not_mem_of_safe hsafe (by decide))

/-- No line of a text that passed the check ends the here-document. -/
theorem delimiter_not_mem_lines {name value text : Str}
    (h : validate_heredoc_body value name heredocDelimiter = .ok text) : heredocDelimiter ∉ lines value := by
  intro hmem
  have hsplit := mem_splitlines (by with_unfolding_all decide) (forall_mem_of_all
    (by with_unfolding_all decide)) hmem
  exact (validate_heredoc_body_ok h).2 (List.mem_map.mpr ⟨heredocDelimiter, hsplit, by with_unfolding_all decide⟩)

theorem stands_heredocPlace {c : Ctrl} (hc : heredocPlace c = true) {name value text : Str}
    (h : inserted name value = .ok text) (hn : name ∈ heredocParams) (pat : Str) : Stands c pat text value := by
  simp only [heredocPlace, Bool.and_eq_true, decide_eq_true_eq] at hc
  obtain ⟨⟨hm, hl⟩, hh⟩ := hc
  simp only [inserted, hn, if_true] at h
  rw [(validate_heredoc_body_ok h).1]
  exact Body.stands_lines ⟨hm, hh, rfl⟩ rfl hl pat value (delimiter_not_mem_lines h)

theorem allowed_placed : Allowed inserted (fun _ value => value) placed := by
  intro c name value text h hp pat
  simp only [placed, Bool.or_eq_true, Bool.and_eq_true, decide_eq_true_eq] at hp
  rcases hp with (⟨hb, hn | hv⟩ | ⟨hq, hv⟩) | ⟨hd, hn⟩
  · exact stands_bare hb h hn pat
  · rw [inserted_plain h hv]
    exact stands_safe ((bare_iff c).mp hb) pat value (plain_iff.mp hv).1 (plain_iff.mp hv).2
  · rw [inserted_plain h hv]
    exact stands_quotedPlace hq hv pat
  · exact stands_heredocPlace hd h hn pat

/-! ## Parameters stay data -/

/-- No placeholder's text is substituted again, and every parameter is where it may stand. -/
def fits (parameters : List (Str × Str)) (cmd : Str) : Bool :=
  !substitutedAgain inserted parameters cmd && wellPlaced placed parameters cmd

theorem commands_stay_data {parameters : List (Str × Str)} {commands sent : List Str}
    (h : commands.mapM (fun cmd => _substitute_params cmd parameters) = .ok sent)
    (hf : ∀ cmd ∈ commands, fits parameters cmd = true) :
    List.Forall₂ (StaysData (fun _ value => value) parameters) commands sent := by
  have hall := mapM_ok h
  clear h
  induction hall with
  | nil => exact .nil
  | cons hcmd _ ih =>
    have hfits := hf _ List.mem_cons_self
    simp only [fits, Bool.and_eq_true, Bool.not_eq_true'] at hfits
    exact .cons (staysData allowed_placed hcmd hfits.1 hfits.2) (ih (fun cmd hmem => hf cmd (by simp [hmem])))

/-- Commands that are sent, to apply a template or to verify it, keep the structure of
their template commands when these fit. -/
theorem parameters_stay_data (u : Unicode) (registry : List (Str × LinuxHardeningTemplate)) (check_id distro_id : Str)
    (template : LinuxHardeningTemplate)
    (ht : get_linux_hardening_template_for_distro u registry check_id distro_id = some template)
    (parameters : List (Str × Str)) (sent : List Str) :
    (get_linux_template_commands_for_distro u registry check_id distro_id parameters = .ok sent →
      (∀ cmd ∈ template.commands, fits parameters cmd = true) →
      List.Forall₂ (StaysData (fun _ value => value) parameters) template.commands sent) ∧
    (get_linux_verify_commands_for_distro u registry check_id distro_id parameters = .ok sent →
      (∀ cmd ∈ template.verify_commands, fits parameters cmd = true) →
      List.Forall₂ (StaysData (fun _ value => value) parameters) template.verify_commands sent) := by
  simp only [get_linux_template_commands_for_distro, get_linux_verify_commands_for_distro, ht]
  exact ⟨commands_stay_data, commands_stay_data⟩

/-- `LNX-L1-5.2.7`: the number of tries is inside the quotes of a `sed` script. -/
def maxAuthTries : LinuxHardeningTemplate where
  commands :=
    [lit "sed -i 's/^#*MaxAuthTries.*/MaxAuthTries {SSH_MAX_AUTH_TRIES}/' /etc/ssh/sshd_config",
     lit "grep -q '^MaxAuthTries' /etc/ssh/sshd_config || echo 'MaxAuthTries {SSH_MAX_AUTH_TRIES}' >> /etc/ssh/sshd_config"]
  verify_commands :=
    [lit "sshd -T | grep -q 'maxauthtries {SSH_MAX_AUTH_TRIES}' && echo 'PASS' || echo 'FAIL'"]

/-- A number stays data. -/
theorem four_stays_data : ∃ sent,
    get_linux_template_commands_for_distro ascii [(lit "LNX-L1-5.2.7", maxAuthTries)] (lit "LNX-L1-5.2.7")
      (lit "ubuntu") [(lit "SSH_MAX_AUTH_TRIES", lit "4")] = .ok sent ∧
    List.Forall₂ (StaysData (fun _ value => value) [(lit "SSH_MAX_AUTH_TRIES", lit "4")]) maxAuthTries.commands sent := by
  have ht : get_linux_hardening_template_for_distro ascii [(lit "LNX-L1-5.2.7", maxAuthTries)] (lit "LNX-L1-5.2.7")
      (lit "ubuntu") = some ⟨maxAuthTries.commands, maxAuthTries.verify_commands⟩ := by with_unfolding_all decide
  have hok : ∃ sent, get_linux_template_commands_for_distro ascii [(lit "LNX-L1-5.2.7", maxAuthTries)]
      (lit "LNX-L1-5.2.7") (lit "ubuntu") [(lit "SSH_MAX_AUTH_TRIES", lit "4")] = .ok sent :=
    ⟨[lit "sed -i 's/^#*MaxAuthTries.*/MaxAuthTries 4/' /etc/ssh/sshd_config",
      lit "grep -q '^MaxAuthTries' /etc/ssh/sshd_config || echo 'MaxAuthTries 4' >> /etc/ssh/sshd_config"],
      by with_unfolding_all decide⟩
  obtain ⟨sent, hsent⟩ := hok
  exact ⟨sent, hsent, (parameters_stay_data ascii _ _ _ _ ht _ sent).1 hsent (by with_unfolding_all decide)⟩

/-- A number of tries that leaves the quotes of the script: what follows is a command of its own. -/
theorem tries_start_reboot : ∃ sent,
    get_linux_template_commands_for_distro ascii [(lit "LNX-L1-5.2.7", maxAuthTries)] (lit "LNX-L1-5.2.7")
      (lit "ubuntu") [(lit "SSH_MAX_AUTH_TRIES", lit "4; reboot #")] = .ok sent ∧
    sent.head? = some (lit "sed -i 's/^#*MaxAuthTries.*/MaxAuthTries '4; reboot #'/' /etc/ssh/sshd_config") ∧
    ¬ List.Forall₂ (StaysData (fun _ value => value) [(lit "SSH_MAX_AUTH_TRIES", lit "4; reboot #")])
      maxAuthTries.commands sent :=
  ⟨[lit "sed -i 's/^#*MaxAuthTries.*/MaxAuthTries '4; reboot #'/' /etc/ssh/sshd_config",
    lit "grep -q '^MaxAuthTries' /etc/ssh/sshd_config || echo 'MaxAuthTries '4; reboot #'' >> /etc/ssh/sshd_config"],
    by with_unfolding_all decide, by with_unfolding_all decide, by with_unfolding_all decide⟩

end LinuxParameters
