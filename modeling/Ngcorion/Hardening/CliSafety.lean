import Ngcorion.Hardening.CliParameters

/-!
# Device parameters stay data

When no placeholder text is substituted again, the device executes one command
for each command of a template, and a banner ends only where the template ends
it.
-/
namespace CliSafety

open Text Placeholder ParamSecurity CliTemplates CliParameters

/-! ## What is sent -/

section
variable {dg : Digits} {family : Family}

theorem substituteValues_ok {parameters : List (Str × Str)} {cmd s : Str}
    (h : substituteValues (_validated_value dg family) parameters cmd = .ok s) :
    s = substitute (values dg family parameters) cmd ∧
      ∀ e ∈ parameters, _validated_value dg family e.1 e.2 = .ok ((_validated_value dg family e.1 e.2).toOption.getD []) := by
  induction parameters generalizing cmd with
  | nil =>
    cases h
    exact ⟨rfl, by simp⟩
  | cons e parameters ih =>
    cases hv : _validated_value dg family e.1 e.2 with
    | error m =>
      rw [substituteValues, List.foldlM_cons, hv] at h
      simp [Except.map, bind, Except.bind] at h
    | ok w =>
      rw [substituteValues, List.foldlM_cons, hv] at h
      obtain ⟨hs, hall⟩ := ih h
      constructor
      · rw [hs]
        simp [values, substitute, hv, Except.toOption]
      · intro e' he'
        rcases List.mem_cons.mp he' with rfl | he'
        · simp [hv, Except.toOption]
        · exact hall e' he'

theorem substituteCommand_ok {missing : Str → Bool} {parameters : List (Str × Str)} {cmd s : Str}
    (h : substituteCommand missing (_validated_value dg family) parameters cmd = .ok s) :
    substituteValues (_validated_value dg family) parameters cmd = .ok s := by
  simp only [substituteCommand] at h
  split at h
  · simp at h
  · exact h

theorem exists_of_forall₂ {R : Str → Str → Prop} {commands out : List Str} (h : List.Forall₂ R commands out) {cmd : Str}
    (hcmd : cmd ∈ commands) : ∃ s, R cmd s := by
  induction h with
  | nil => simp at hcmd
  | cons hr _ ih =>
    rcases List.mem_cons.mp hcmd with rfl | hcmd
    · exact ⟨_, hr⟩
    · exact ih hcmd

/-- Each command that is sent is its template command with the values put in one
after the other. -/
theorem substitute_parameters_ok {commands out : List Str} {parameters : List (Str × Str)}
    (h : substitute_parameters dg family commands parameters = .ok out) :
    List.Forall₂ (fun cmd s => substituteValues (_validated_value dg family) parameters cmd = .ok s) commands out := by
  cases family with
  | cisco =>
    have hmap : ∃ missing, commands.mapM (substituteCommand missing (ciscoValue dg) parameters) = .ok out := by
      simp only [substitute_parameters, ciscoSubstitute] at h
      cases hv : validate_parameter_values dg parameters with
      | error m =>
        rw [hv] at h
        simp [bind, Except.bind] at h
      | ok _ =>
        rw [hv] at h
        exact ⟨_, h⟩
    obtain ⟨missing, hmap⟩ := hmap
    exact (mapM_ok hmap).imp (fun _ _ hs => substituteCommand_ok hs)
  | fortinet => exact (mapM_ok h).imp (fun _ _ hs => substituteCommand_ok hs)

/-! ## The values -/

/-- A parameter whose value may have several lines. -/
def isTextarea : Family → Str → Bool
  | .cisco, name => get_parameter_metadata name = some .textarea
  | .fortinet, _ => false

theorem isNewline_control {c : Char} (h : isControl c = false) : isNewline c = false := by
  simp only [isControl, Bool.or_eq_false_iff, decide_eq_false_iff_not, Nat.not_lt] at h
  have hn : c ≠ '\n' := by
    rintro rfl
    exact absurd h.1 (by decide)
  have hr : c ≠ '\r' := by
    rintro rfl
    exact absurd h.1 (by decide)
  simp [isNewline, hn, hr]

theorem isNewline_digit {c : Char} (h : c = '-' ∨ c.isDigit = true) : isNewline c = false := by
  rcases h with rfl | h
  · decide
  · have hn : c ≠ '\n' := by
      rintro rfl
      exact absurd h (by decide)
    have hr : c ≠ '\r' := by
      rintro rfl
      exact absurd h (by decide)
    simp [isNewline, hn, hr]

/-- A value has one line, or its parameter is a text area and it has no delimiter. -/
theorem validated_value_ok {name value w : Str} (h : _validated_value dg family name value = .ok w) :
    (isTextarea family name = false → ∀ c ∈ w, isNewline c = false) ∧ (isTextarea family name = true → '^' ∉ w) := by
  have hline : ∀ {v : Str}, validate_cli_line value name = .ok v → ∀ c ∈ v, isNewline c = false := by
    intro v hv c hc
    obtain ⟨rfl, hcontrol⟩ := validate_cli_line_ok hv
    exact isNewline_control (hcontrol c hc)
  have hnumber : ∀ {v : Str}, validate_integer dg value name none none = .ok v → ∀ c ∈ v, isNewline c = false :=
    fun hv c hc => isNewline_digit (validate_integer_ok hv c hc)
  cases family with
  | cisco =>
    simp only [_validated_value, ciscoValue] at h
    simp only [isTextarea, decide_eq_false_iff_not, decide_eq_true_eq]
    split at h
    · next ht =>
      obtain ⟨rfl, hd⟩ := validate_delimited_text_ok h
      exact ⟨fun hn => absurd ht hn, fun _ => hd⟩
    · next ht => exact ⟨fun _ => hnumber h, fun hn => by simp [hn] at ht⟩
    · next hn _ => exact ⟨fun _ => hline h, fun ht => absurd ht hn⟩
  | fortinet =>
    simp only [_validated_value, fortigateValue] at h
    simp only [isTextarea, Bool.false_eq_true, false_implies, and_true]
    intro _
    split at h
    · exact hnumber h
    · exact hline h

/-- The value of a hole is a value of its own parameter. -/
theorem get_values {parameters : List (Str × Str)} {cmd s : Str}
    (h : substituteValues (_validated_value dg family) parameters cmd = .ok s) {pat w : Str}
    (hget : Dict.get (values dg family parameters) pat = some w) :
    (isTextarea family (nameOf pat) = false → ∀ c ∈ w, isNewline c = false) ∧
      (isTextarea family (nameOf pat) = true → '^' ∉ w) := by
  obtain ⟨e, he, hmem⟩ := List.mem_flatMap.mp (Dict.mem_of_get _ _ _ hget)
  have hok := validated_value_ok ((substituteValues_ok h).2 e he)
  have hname : nameOf pat = e.1 ∧ w = (_validated_value dg family e.1 e.2).toOption.getD [] := by
    simp only [List.mem_cons, Prod.mk.injEq, List.not_mem_nil, or_false] at hmem
    rcases hmem with ⟨rfl, hw⟩ | ⟨rfl, hw⟩
    · exact ⟨by simp [nameOf, angle], hw⟩
    · exact ⟨by simp [nameOf, brace], hw⟩
  rw [hname.1, hname.2]
  exact hok

end

/-! ## Reading commands -/

theorem receive_append (r : Reader) (s t : Str) : receive r (s ++ t) = receive (receive r s) t := by
  simp [receive, List.foldl_append]

/-- A text without line ends that is no banner stays one line. -/
theorem receive_line (done : List Str) (current s : Str) (hs : ∀ c ∈ s, isNewline c = false)
    (hb : startsWith (lit "banner ") (current ++ s) = false) :
    receive ⟨done, current, .line⟩ s = ⟨done, current ++ s, .line⟩ := by
  induction s generalizing current with
  | nil => simp [receive]
  | cons c s ih =>
    have hc := hs c (by simp)
    have hcur : startsWith (lit "banner ") current = false := by
      by_contra hcur
      obtain ⟨t, rfl⟩ := (startsWith_iff _ _).mp (by simpa using hcur)
      rw [List.append_assoc, startsWith_append] at hb
      exact absurd hb (by simp)
    have hstep : readChar ⟨done, current, .line⟩ c = ⟨done, current ++ [c], .line⟩ := by
      simp [readChar, hc, hcur]
    have hrest := ih (current ++ [c]) (fun d hd => hs d (by simp [hd])) (by simpa using hb)
    rw [receive, List.foldl_cons, hstep]
    simpa [receive] using hrest

/-- The line up to the delimiter of a banner. -/
theorem receive_head (done : List Str) (current s : Str) (hs : ∀ c ∈ s, isNewline c = false ∧ c ≠ '^') :
    receive ⟨done, current, .line⟩ s = ⟨done, current ++ s, .line⟩ := by
  induction s generalizing current with
  | nil => simp [receive]
  | cons c s ih =>
    have hc := hs c (by simp)
    have hstep : readChar ⟨done, current, .line⟩ c = ⟨done, current ++ [c], .line⟩ := by
      simp [readChar, hc.1, hc.2]
    have hrest := ih (current ++ [c]) (fun d hd => hs d (by simp [hd]))
    rw [receive, List.foldl_cons, hstep]
    simpa [receive] using hrest

/-- The text of a banner, line ends included. -/
theorem receive_text (done : List Str) (current s : Str) (hs : '^' ∉ s) :
    receive ⟨done, current, .text⟩ s = ⟨done, current ++ s, .text⟩ := by
  induction s generalizing current with
  | nil => simp [receive]
  | cons c s ih =>
    have hc : c ≠ '^' := fun h => hs (by simp [h])
    have hstep : readChar ⟨done, current, .text⟩ c = ⟨done, current ++ [c], .text⟩ := by simp [readChar, hc]
    have hrest := ih (current ++ [c]) (fun h => hs (by simp [h]))
    rw [receive, List.foldl_cons, hstep]
    simpa [receive] using hrest

/-- The device reads the text and the key that enters it as one command. -/
def ReadsAsOne (s : Str) : Prop := ∀ done, receive ⟨done, [], .line⟩ (s ++ ['\n']) = ⟨done ++ [s], [], .line⟩

theorem readsAsOne_line {s : Str} (hs : ∀ c ∈ s, isNewline c = false) (hb : startsWith (lit "banner ") s = false) :
    ReadsAsOne s := by
  intro done
  rw [receive_append, receive_line done [] s hs (by simpa using hb)]
  simp [receive, readChar, isNewline]

theorem readsAsOne_banner {head text : Str} (hb : startsWith (lit "banner ") head = true)
    (hh : ∀ c ∈ head, isNewline c = false ∧ c ≠ '^') (ht : '^' ∉ text) :
    ReadsAsOne (head ++ '^' :: (text ++ ['^'])) := by
  intro done
  have hopen : readChar ⟨done, head, .line⟩ '^' = ⟨done, head ++ ['^'], .text⟩ := by
    simp [readChar, isNewline, hb]
  have htext := receive_text done (head ++ ['^']) text ht
  have hsplit : head ++ '^' :: (text ++ ['^']) ++ ['\n'] = head ++ (['^'] ++ (text ++ ['^', '\n'])) := by simp
  rw [hsplit, receive_append, receive_head done [] head hh, receive_append, receive_append]
  simp only [receive, List.foldl_cons, List.foldl_nil, List.nil_append, hopen]
  simp only [receive] at htext
  rw [htext]
  simp [readChar, isNewline]

theorem receive_stream (commands : List Str) (h : ∀ s ∈ commands, ReadsAsOne s) (done : List Str) :
    receive ⟨done, [], .line⟩ (stream commands) = ⟨done ++ commands, [], .line⟩ := by
  induction commands generalizing done with
  | nil => simp [stream, receive]
  | cons s commands ih =>
    have hs := h s (by simp) done
    have hrest := ih (fun t ht => h t (by simp [ht])) (done ++ [s])
    rw [stream, List.flatMap_cons, receive_append, hs]
    simpa [stream] using hrest

/-! ## The templates -/

/-- The text differs from the pattern before its first hole. -/
def divergesFrom : Str → List Piece → Bool
  | [], _ => false
  | _ :: _, [] => true
  | c :: pat, .char d :: ps => c ≠ d || divergesFrom pat ps
  | _ :: _, .hole _ :: _ => false

/-- A command on one line that is no banner and has no parameter of several lines. -/
def plainShape (family : Family) (ps : List Piece) : Bool :=
  divergesFrom (lit "banner ") ps && ps.all (fun p => match p with
    | .char c => !isNewline c
    | .hole pat => !isTextarea family (nameOf pat) && pat.all (fun c => !isNewline c))

/-- A banner whose text is one parameter of several lines between the delimiters. -/
def bannerShape (family : Family) (ps : List Piece) : Bool :=
  match ps.reverse with
  | .char '^' :: .hole pat :: .char '^' :: before =>
    let head := render before.reverse
    before.reverse = head.map Piece.char && startsWith (lit "banner ") head && isTextarea family (nameOf pat) &&
      head.all (fun c => !isNewline c && c ≠ '^') && '^' ∉ pat
  | _ => false

def shape (family : Family) (cmd : Str) : Bool :=
  plainShape family (pieces holeAt cmd) || bannerShape family (pieces holeAt cmd)

theorem templates_shape : ∀ family, ∀ t ∈ templates family, ∀ cmd ∈ t.2, shape family cmd = true := by
  have hcisco : ∀ t ∈ commandTemplates, ∀ cmd ∈ t.2, shape .cisco cmd = true := by decide +kernel
  have hfortinet : ∀ t ∈ fortigateCommandTemplates, ∀ cmd ∈ t.2, shape .fortinet cmd = true := by
    with_unfolding_all decide
  intro family
  cases family with
  | cisco => exact hcisco
  | fortinet => exact hfortinet

theorem startsWith_fill (pairs : List (Str × Str)) (pat : Str) (ps : List Piece) (h : divergesFrom pat ps = true) :
    startsWith pat (fill pairs ps) = false := by
  induction pat generalizing ps with
  | nil => simp [divergesFrom] at h
  | cons c pat ih =>
    cases ps with
    | nil => rfl
    | cons p ps =>
      cases p with
      | hole _ => simp [divergesFrom] at h
      | char d =>
        simp only [divergesFrom, Bool.or_eq_true, decide_eq_true_eq] at h
        simp only [fill_char, startsWith, List.isPrefixOf_cons_cons, Bool.and_eq_false_iff, beq_eq_false_iff_ne]
        rcases h with h | h
        · exact Or.inl h
        · exact Or.inr (ih ps h)

section
variable {dg : Digits} {family : Family} {parameters : List (Str × Str)}

/-- The values that are put in are values of their own parameters. -/
def Accepted (dg : Digits) (family : Family) (parameters : List (Str × Str)) : Prop :=
  ∀ pat w, Dict.get (values dg family parameters) pat = some w →
    (isTextarea family (nameOf pat) = false → ∀ c ∈ w, isNewline c = false) ∧
      (isTextarea family (nameOf pat) = true → '^' ∉ w)

theorem readsAsOne_plain (hv : Accepted dg family parameters) (ps : List Piece) (h : plainShape family ps = true) :
    ReadsAsOne (fill (values dg family parameters) ps) := by
  simp only [plainShape, Bool.and_eq_true] at h
  apply readsAsOne_line
  · have hall := h.2
    clear h
    induction ps with
    | nil => simp
    | cons p ps ih =>
      simp only [List.all_cons, Bool.and_eq_true] at hall
      intro c hc
      cases p with
      | char d =>
        rcases List.mem_cons.mp hc with rfl | hc
        · simpa using hall.1
        · exact ih hall.2 c hc
      | hole pat =>
        simp only [fill_hole, List.mem_append] at hc
        rcases hc with hc | hc
        · cases hg : Dict.get (values dg family parameters) pat with
          | none =>
            rw [hg, Option.getD_none] at hc
            simpa using List.all_eq_true.mp (Bool.and_eq_true_iff.mp hall.1).2 c hc
          | some w =>
            rw [hg, Option.getD_some] at hc
            exact (hv pat w hg).1 (by simpa using (Bool.and_eq_true_iff.mp hall.1).1) c hc
        · exact ih hall.2 c hc
  · exact startsWith_fill _ _ ps h.1

theorem readsAsOne_bannerShape (hv : Accepted dg family parameters) (ps : List Piece)
    (h : bannerShape family ps = true) : ReadsAsOne (fill (values dg family parameters) ps) := by
  unfold bannerShape at h
  split at h
  · next pat before hrev =>
    simp only [Bool.and_eq_true, decide_eq_true_eq, List.all_eq_true] at h
    obtain ⟨⟨⟨⟨hchars, hbanner⟩, harea⟩, hhead⟩, hpat⟩ := h
    have hps : ps = (render before.reverse).map Piece.char ++ [Piece.char '^', .hole pat, .char '^'] := by
      rw [← hchars, ← List.reverse_reverse ps, hrev]
      simp
    have htext : '^' ∉ (Dict.get (values dg family parameters) pat).getD pat := by
      cases hg : Dict.get (values dg family parameters) pat with
      | none => exact hpat
      | some w => exact (hv pat w hg).2 harea
    rw [hps, fill_append, fill_map_char]
    have hread := readsAsOne_banner hbanner (fun c hc => by simpa using hhead c hc) htext
    simpa [fill_char, fill_hole] using hread
  · simp at h

end

/-! ## Parameters stay data -/

theorem pieces_substitute {dg : Digits} {family : Family} {parameters : List (Str × Str)} {cmd s : Str}
    (h : substituteValues (_validated_value dg family) parameters cmd = .ok s)
    (hs : substitutedAgain dg family parameters cmd = false) : s = filled dg family parameters cmd := by
  have hne : ∀ e ∈ values dg family parameters, e.1 ≠ [] := by
    intro e he
    obtain ⟨p, -, hp⟩ := List.mem_flatMap.mp he
    simp only [List.mem_cons, List.not_mem_nil, or_false] at hp
    rcases hp with rfl | rfl
    · simp [angle]
    · simp [brace]
  have hfill := substitute_render (values dg family parameters) hne (pieces holeAt cmd) hs
  rw [(substituteValues_ok h).1, filled, ← hfill, render_pieces]

/-- When no placeholder text is substituted again, the device executes exactly one
command for each template command, each placeholder replaced by its own value. -/
theorem one_command_each (dg : Digits) (family : Family) (number : Str) (commands : List Str)
    (ht : (number, commands) ∈ templates family) (parameters : List (Str × Str)) (sent : List Str)
    (h : substitute_parameters dg family commands parameters = .ok sent)
    (hs : ∀ cmd ∈ commands, substitutedAgain dg family parameters cmd = false) :
    OneCommandEach dg family parameters commands sent := by
  have hall := substitute_parameters_ok h
  have hsent : sent = commands.map (filled dg family parameters) := by
    clear h ht
    induction hall with
    | nil => rfl
    | cons hcmd _ ih =>
      rw [List.map_cons, pieces_substitute hcmd (hs _ (by simp)), ih (fun c hc => hs c (by simp [hc]))]
  have hone : ∀ s ∈ sent, ReadsAsOne s := by
    intro s hsm
    rw [hsent] at hsm
    obtain ⟨cmd, hcmd, rfl⟩ := List.mem_map.mp hsm
    have haccepted : Accepted dg family parameters := by
      obtain ⟨s', hs'⟩ := exists_of_forall₂ hall hcmd
      exact fun pat w hw => get_values hs' hw
    have hshape := templates_shape family (number, commands) ht cmd hcmd
    rcases Bool.or_eq_true_iff.mp hshape with hplain | hbanner
    · exact readsAsOne_plain haccepted _ hplain
    · exact readsAsOne_bannerShape haccepted _ hbanner
  rw [OneCommandEach, receive_stream sent hone, hsent]
  rfl

/-- A banner of two lines is one command. -/
theorem bannerOfTwoLines_one_command : ∃ sent, substitute_parameters asciiDigits .cisco
      [lit "configure terminal", lit "banner motd ^{BANNER_TEXT}^", lit "end", lit "write memory"]
      [(lit "BANNER_TEXT", lit "Keep out\nreload")] = .ok sent ∧
    OneCommandEach asciiDigits .cisco [(lit "BANNER_TEXT", lit "Keep out\nreload")]
      [lit "configure terminal", lit "banner motd ^{BANNER_TEXT}^", lit "end", lit "write memory"] sent :=
  ⟨[lit "configure terminal", lit "banner motd ^Keep out\nreload^", lit "end", lit "write memory"],
    by with_unfolding_all decide,
    one_command_each asciiDigits .cisco (lit "IOS-L1-005") _ (by with_unfolding_all decide) _ _
      (by with_unfolding_all decide)
      (by with_unfolding_all decide)⟩

/-- A host name that is the placeholder of the banner text starts a command of its own. -/
theorem hostname_starts_reload : ∃ sent,
    (lit "IOS-L1-0010", [lit "configure terminal", lit "hostname {HOSTNAME}", lit "end", lit "write memory"]) ∈
      templates .cisco ∧
    substitute_parameters asciiDigits .cisco
      [lit "configure terminal", lit "hostname {HOSTNAME}", lit "end", lit "write memory"]
      [(lit "HOSTNAME", lit "{BANNER_TEXT}"), (lit "BANNER_TEXT", lit "r1\nreload")] = .ok sent ∧
    ¬ OneCommandEach asciiDigits .cisco [(lit "HOSTNAME", lit "{BANNER_TEXT}"), (lit "BANNER_TEXT", lit "r1\nreload")]
      [lit "configure terminal", lit "hostname {HOSTNAME}", lit "end", lit "write memory"] sent ∧
    (receive ⟨[], [], .line⟩ (stream sent)).done =
      [lit "configure terminal", lit "hostname r1", lit "reload", lit "end", lit "write memory"] :=
  ⟨[lit "configure terminal", lit "hostname r1\nreload", lit "end", lit "write memory"],
    by with_unfolding_all decide,
    by with_unfolding_all decide, by unfold OneCommandEach; with_unfolding_all decide,
      by with_unfolding_all decide⟩

end CliSafety
