import Ngcorion.Backup.FileBundle
import Ngcorion.LinkedFiles
import Mathlib.Data.List.Dedup

/-!
# Reverting a file bundle

Before the files of a bundle are written, the touched paths are saved: as tar entries, or as absent. The revert extracts
the entries and removes what was absent. A tar entry of a symbolic link is the link, but a write goes through the link
to the file at its end.
-/
namespace BundleRevert

open Text FileBundle LinkedFiles

/-! ## The paths -/

def family_paths : Family → List Str
  | .linux =>
    [lit "/etc/ssh/sshd_config", lit "/etc/ssh/sshd_config.d/*.conf", lit "/etc/sysctl.conf", lit "/etc/sysctl.d/*.conf",
     lit "/etc/login.defs", lit "/etc/security/pwquality.conf", lit "/etc/security/pwquality.conf.d/*.conf",
     lit "/etc/security/faillock.conf", lit "/etc/security/limits.conf", lit "/etc/security/limits.d/*.conf",
     lit "/etc/pam.d/common-password", lit "/etc/pam.d/common-auth", lit "/etc/pam.d/common-account",
     lit "/etc/pam.d/password-auth", lit "/etc/pam.d/system-auth", lit "/etc/pam.d/su", lit "/etc/pam.d/sshd",
     lit "/etc/audit/auditd.conf", lit "/etc/audit/rules.d/*.rules", lit "/etc/issue", lit "/etc/issue.net",
     lit "/etc/motd", lit "/etc/modprobe.d/*.conf", lit "/etc/default/grub", lit "/etc/crontab", lit "/etc/cron.allow",
     lit "/etc/cron.deny", lit "/etc/at.allow", lit "/etc/at.deny", lit "/etc/profile", lit "/etc/bashrc",
     lit "/etc/bash.bashrc", lit "/etc/profile.d/*.sh"]
  | .apache =>
    [lit "/etc/apache2/apache2.conf", lit "/etc/apache2/ports.conf", lit "/etc/apache2/envvars",
     lit "/etc/apache2/conf-enabled/*.conf", lit "/etc/apache2/conf-available/*.conf",
     lit "/etc/apache2/sites-enabled/*.conf", lit "/etc/apache2/mods-enabled/*.conf",
     lit "/etc/apache2/mods-enabled/*.load", lit "/etc/httpd/conf/httpd.conf", lit "/etc/httpd/conf.d/*.conf",
     lit "/etc/httpd/conf.modules.d/*.conf"]
  | .mongodb => [lit "/etc/mongod.conf", lit "/etc/mongodb.conf"]

/-- `fnmatch.fnmatchcase` for patterns whose only special character is the star -/
def fnmatchcase : Str → Str → Bool
  | [], s => s = []
  | '*' :: pattern, [] => fnmatchcase pattern []
  | '*' :: pattern, c :: s => fnmatchcase pattern (c :: s) || fnmatchcase ('*' :: pattern) s
  | _ :: _, [] => false
  | p :: pattern, c :: s => p = c && fnmatchcase pattern s
termination_by pattern s => pattern.length + s.length

/-- One component of a path on top of those before it -/
def normComponent (slashes : Nat) (done : List Str) (comp : Str) : List Str :=
  if comp = [] ∨ comp = lit "." then done
  else if comp ≠ lit ".." ∨ slashes = 0 ∧ done = [] ∨ done.getLast? = some (lit "..") then done ++ [comp]
  else done.dropLast

/-- `posixpath.normpath` -/
def normpath (path : Str) : Str :=
  let slashes := if startsWith (lit "//") path && !startsWith (lit "///") path then 2 else if startsWith ['/'] path then 1 else 0
  let comps := (path.splitOn '/').foldl (normComponent slashes) []
  let joined := List.replicate slashes '/' ++ ['/'].intercalate comps
  if joined = [] then ['.'] else joined

def path_allowed (path : Str) (family : Family) : Bool :=
  if !startsWith ['/'] path || normpath path ≠ path || '\n' ∈ path then false
  else (family_paths family).any (fnmatchcase · path)

/-- The temporary file of a write -/
def tmp (path : Str) : Str := path ++ lit ".ngcorion-restore"

/-! ## The commands -/

abbrev Disk := FS Str Str

/-- The result of a redirect to a file -/
def overwrite (fs : Disk) (file content : Str) : Disk := Function.update fs file (some (.file content))

def unlink (fs : Disk) (path : Str) : Disk := Function.update fs path none

/-- `write_command` after so many of its steps: the content goes to the temporary file; where the path exists it is
copied through it, and the temporary file removed, else the temporary file is moved there. -/
def write_command (path content : Str) (steps : Nat) (fs : Disk) : Disk :=
  if steps = 0 then fs
  else match follow fs maxLinks (tmp path) with
    | none => fs
    | some t =>
      let saved := overwrite fs t content
      if steps = 1 then saved
      else match read saved path, follow saved maxLinks path with
        | some _, some file =>
          -- the shell empties the file before `cat` reads
          let copied := overwrite saved file ((read (overwrite saved file []) (tmp path)).getD [])
          if steps = 2 then copied else unlink copied (tmp path)
        | _, _ => Function.update (Function.update saved path (saved (tmp path))) (tmp path) none

def remove_command (path : Str) (steps : Nat) (fs : Disk) : Disk := if steps = 0 then fs else unlink fs path

inductive Command where
  | write (path content : Str)
  | remove (path : Str)

def Command.run (steps : Nat) : Command → Disk → Disk
  | .write path content => write_command path content steps
  | .remove path => remove_command path steps

/-- The steps of a command that ends -/
def allSteps : Nat := 3

def commands (plan : BundlePlan) : List Command :=
  plan.write.map (fun f => Command.write f.1 f.2) ++ plan.remove.map Command.remove

/-- After so many commands of `apply`, and so many steps of the next one -/
def during (plan : BundlePlan) (done steps : Nat) (fs : Disk) : Disk :=
  let before := ((commands plan).take done).foldl (fun fs c => c.run allSteps fs) fs
  match (commands plan)[done]? with
  | some c => c.run steps before
  | none => before

/-- `sorted(set(plan.write) | set(plan.remove))` -/
def _touched (plan : BundlePlan) : List Str := (Dict.keys plan.write ++ plan.remove).dedup.insertionSort (· ≤ ·)

/-- The archive and the list of absent paths -/
structure Snapshot where
  tar : List (Str × Node Str Str)
  absent : List Str

def snapshot_command (plan : BundlePlan) (fs : Disk) : Snapshot where
  tar := (_touched plan).filterMap fun p => if (read fs p).isSome then (fs p).map (p, ·) else none
  absent := (_touched plan).filter fun p => (read fs p).isNone

def isIfs (c : Char) : Bool := c = ' ' || c = '\t'

/-- What `read -r` makes of a line -/
def readLine (line : Str) : Str := ((line.dropWhile isIfs).reverse.dropWhile isIfs).reverse

/-- The names that the loop over the list of absent paths removes; `echo` has printed them. -/
def removed (echo : Str → Str) (absent : List Str) : List Str :=
  (absent.flatMap fun p => (lines (echo p)).map readLine).filter (· ≠ [])

def revert_script (echo : Str → Str) (snapshot : Snapshot) (fs : Disk) : Disk :=
  (removed echo snapshot.absent).foldl unlink
    (snapshot.tar.foldl (fun fs e => Function.update fs e.1 (some e.2)) fs)

/-- Whenever the revert runs, each touched path reads as it did before the snapshot. -/
def Restored (echo : Str → Str) (plan : BundlePlan) (fs : Disk) : Prop :=
  ∀ done steps, ∀ p ∈ _touched plan,
    read (revert_script echo (snapshot_command plan fs) (during plan done steps fs)) p = read fs p

/-! ## Allowed paths -/

theorem getLast?_cons_of_some {a c : Char} {s : Str} (h : s.getLast? = some c) : (a :: s).getLast? = some c := by
  cases s with
  | nil => simp at h
  | cons b s => simpa using h

theorem fnmatch_last {pattern path : Str} (h : fnmatchcase pattern path = true) {c : Char} (hc : pattern.getLast? = some c)
    (hstar : c ≠ '*') : path.getLast? = some c := by
  fun_induction fnmatchcase pattern path with
  | case1 => simp at hc
  | case2 pattern ih =>
    cases pattern with
    | nil => exact absurd (by simpa using hc.symm) hstar
    | cons d pattern => exact ih h (by simpa using hc)
  | case3 pattern d s ih₁ ih₂ =>
    rcases Bool.or_eq_true .. |>.mp h with h | h
    · cases pattern with
      | nil => exact absurd (by simpa using hc.symm) hstar
      | cons e pattern => exact ih₁ h (by simpa using hc)
    · exact getLast?_cons_of_some (ih₂ h hc)
  | case4 => cases h
  | case5 p pattern d s _ ih =>
    simp only [Bool.and_eq_true, decide_eq_true_eq] at h
    cases pattern with
    | nil =>
      have hs : s = [] := by simpa [fnmatchcase] using h.2
      simpa [hs, ← h.1] using hc
    | cons e pattern => exact getLast?_cons_of_some (ih h.2 (by simpa using hc))

theorem fnmatch_plain {pattern path : Str} (h : fnmatchcase pattern path = true) (hstar : '*' ∉ pattern) : path = pattern := by
  fun_induction fnmatchcase pattern path with
  | case1 => simpa using h
  | case2 => simp at hstar
  | case3 => simp at hstar
  | case4 => cases h
  | case5 p pattern d s _ ih =>
    simp only [Bool.and_eq_true, decide_eq_true_eq] at h
    rw [ih h.2 (by simp_all), h.1]

/-- How the patterns end: with no blank, and not as a temporary name does. -/
def endsPlainly (pattern : Str) : Bool :=
  match pattern.getLast? with
  | none => false
  | some c => c ≠ '*' && !isIfs c && (c ≠ 'e' || '*' ∉ pattern && !endsWith (lit ".ngcorion-restore") pattern)

theorem family_paths_end (family : Family) : ∀ pattern ∈ family_paths family, endsPlainly pattern = true := by
  cases family <;> with_unfolding_all decide

theorem tmp_last (path : Str) : (tmp path).getLast? = some 'e' := by
  have h : (lit ".ngcorion-restore").getLast? = some 'e' := by with_unfolding_all decide
  rw [tmp, List.getLast?_append, h]
  rfl

/-- An allowed path is on one line, begins and ends with no blank, and is not a temporary name. -/
structure PlainPath (path : Str) : Prop where
  one_line : '\n' ∉ path
  first : path.head? = some '/'
  last : ∀ c ∈ path.getLast?, isIfs c = false
  not_tmp : ∀ w, path ≠ tmp w

theorem plainPath_of_allowed {path : Str} {family : Family} (h : path_allowed path family = true) : PlainPath path := by
  unfold path_allowed at h
  split at h
  · cases h
  · rename_i hguard
    simp only [Bool.or_eq_true, not_or, Bool.not_eq_true', decide_eq_true_eq] at hguard
    obtain ⟨pattern, hpattern, hmatch⟩ := List.any_eq_true.mp h
    have hends := family_paths_end family pattern hpattern
    unfold endsPlainly at hends
    split at hends
    · cases hends
    · rename_i c hc
      simp only [Bool.and_eq_true, decide_eq_true_eq, Bool.or_eq_true, Bool.not_eq_true'] at hends
      have hlast := fnmatch_last hmatch hc hends.1.1
      refine ⟨hguard.2, ?_, ?_, ?_⟩
      · have hslash := hguard.1.1
        obtain ⟨rest, rfl⟩ := (startsWith_iff _ _).mp (by simpa using hslash)
        rfl
      · intro d hd
        rw [hlast] at hd
        cases hd
        exact hends.1.2
      · rintro w rfl
        rw [tmp_last] at hlast
        cases hlast
        rcases hends.2 with he | ⟨hstar, htmp⟩
        · exact he rfl
        · obtain rfl := fnmatch_plain hmatch (by simpa using hstar)
          have hsuffix : endsWith (lit ".ngcorion-restore") (tmp w) = true :=
            List.isSuffixOf_iff_suffix.mpr (List.suffix_append _ _)
          rw [hsuffix] at htmp
          cases htmp

theorem readLine_of_plain {path : Str} (h : PlainPath path) : readLine path = path := by
  obtain ⟨d, rest, rfl⟩ : ∃ d rest, path = d :: rest := by
    cases path with
    | nil => exact absurd h.first (by simp)
    | cons d rest => exact ⟨d, rest, rfl⟩
  obtain rfl : d = '/' := by simpa using h.first
  have hfront : ('/' :: rest).dropWhile isIfs = '/' :: rest := by simp [isIfs]
  have hback : ('/' :: rest).reverse.dropWhile isIfs = ('/' :: rest).reverse := by
    cases hr : ('/' :: rest).reverse with
    | nil => rfl
    | cons c s =>
      have hc : isIfs c = false := h.last c (by rw [List.getLast?_eq_head?_reverse, hr]; rfl)
      simp [hc]
  rw [readLine, hfront, hback, List.reverse_reverse]

/-! ## The host -/

section

variable (plan : BundlePlan) (fs₀ : Disk)

theorem mem_touched {p : Str} : p ∈ _touched plan ↔ p ∈ Dict.keys plan.write ∨ p ∈ plan.remove := by
  rw [_touched, List.mem_insertionSort, List.mem_dedup, List.mem_append]

/-- What holds of the paths and of the temporary names: the paths are allowed and have no backslash, and no link is at
a temporary name or leads to one. -/
structure Plain (family : Family) : Prop where
  allowed : ∀ p ∈ _touched plan, path_allowed p family = true
  no_backslash : ∀ p ∈ _touched plan, '\\' ∉ p
  no_link : ∀ w ∈ Dict.keys plan.write, ¬ IsLink fs₀ (tmp w)
  apart : ∀ p ∈ _touched plan, ∀ w ∈ Dict.keys plan.write, ¬ On fs₀ p (tmp w)

/-- Where a path that is written exists, the file at the end of its links is touched itself, or has the content that is
written. -/
def Covered : Prop :=
  ∀ e ∈ plan.write, ∀ n ≤ maxLinks, ∀ f old, Leads fs₀ n e.1 f → fs₀ f = some (.file old) → f ∈ _touched plan ∨ old = e.2

end

/-! ## The revert -/

section

variable {plan : BundlePlan} {fs₀ : Disk} {family : Family} {echo : Str → Str}

/-- The names of the list of absent paths are read as they are. -/
theorem removed_absent (hplain : Plain plan fs₀ family) (hecho : ∀ s, '\\' ∉ s → echo s = s) :
    removed echo (snapshot_command plan fs₀).absent = (_touched plan).filter fun p => (read fs₀ p).isNone := by
  have hline : ∀ p ∈ (_touched plan).filter (fun p => (read fs₀ p).isNone), (lines (echo p)).map readLine = [p] := by
    intro p hp
    have hp := List.mem_of_mem_filter hp
    have hpath := plainPath_of_allowed (hplain.allowed p hp)
    rw [hecho p (hplain.no_backslash p hp), lines_of_no_newline p hpath.one_line, List.map_singleton,
      readLine_of_plain hpath]
  rw [removed, snapshot_command, List.flatMap_congr hline, List.flatMap_singleton', List.filter_eq_self.mpr]
  intro p hp
  have hpath := plainPath_of_allowed (hplain.allowed p (List.mem_of_mem_filter hp))
  have : p ≠ [] := by
    rintro rfl
    exact absurd hpath.first (by simp)
  simpa using this

theorem foldl_unlink (names : List Str) (fs : Disk) (q : Str) :
    names.foldl unlink fs q = if q ∈ names then none else fs q := by
  induction names generalizing fs with
  | nil => simp
  | cons n names ih =>
    rw [List.foldl_cons, ih]
    by_cases hq : q = n
    · simp [hq, unlink]
    · simp [hq, unlink]

theorem foldl_extract (ps : List Str) (p : Str → Bool) (fs : Disk) (q : Str) :
    (ps.filterMap fun r => if p r then (fs₀ r).map (r, ·) else none).foldl
        (fun (fs : Disk) e => Function.update fs e.1 (some e.2)) fs q =
      if q ∈ ps ∧ p q = true ∧ (fs₀ q).isSome then fs₀ q else fs q := by
  induction ps generalizing fs with
  | nil => simp
  | cons r ps ih =>
    by_cases hr : p r = true ∧ (fs₀ r).isSome
    · obtain ⟨node, hnode⟩ := Option.isSome_iff_exists.mp hr.2
      simp only [List.filterMap_cons, hr.1, if_true, hnode, Option.map_some, List.foldl_cons, ih]
      by_cases hq : q = r
      · subst hq
        simp [hr.1, hnode]
      · simp [hq]
    · have hnone : (if p r then (fs₀ r).map (r, ·) else none) = none := by
        by_cases hp : p r = true
        · simpa [hp] using hr
        · simp [hp]
      simp only [List.filterMap_cons, hnone, ih]
      by_cases hq : q = r
      · subst hq
        rw [if_neg (fun h => hr h.2), if_neg (fun h => hr h.2)]
      · simp [hq]

/-- The revert puts the nodes of the touched paths back and leaves all others. -/
theorem revert_at (hplain : Plain plan fs₀ family) (hecho : ∀ s, '\\' ∉ s → echo s = s) (fs : Disk) (q : Str) :
    revert_script echo (snapshot_command plan fs₀) fs q =
      if q ∈ _touched plan then (if (read fs₀ q).isSome then fs₀ q else none) else fs q := by
  rw [revert_script, removed_absent hplain hecho, foldl_unlink, snapshot_command, foldl_extract]
  by_cases hq : q ∈ _touched plan
  · cases hread : read fs₀ q with
    | none => simp [hq, hread]
    | some c =>
      have hsome : (fs₀ q).isSome := by
        cases hnode : fs₀ q with
        | none =>
          have hn : read fs₀ q = none := by
            simp [LinkedFiles.read, follow_of_not_link (not_isLink_of_none hnode), hnode]
          simp [hread] at hn
        | some node => rfl
      simp [hq, hread, hsome]
  · simp [hq]

/-! ## What the commands leave -/

/-- A path whose links end at a file, away from the temporary names -/
def Stable (plan : BundlePlan) (fs₀ : Disk) (q : Str) : Prop :=
  (∃ n ≤ maxLinks, ∃ f c, Leads fs₀ n q f ∧ fs₀ f = some (.file c)) ∧ ∀ w ∈ Dict.keys plan.write, ¬ On fs₀ q (tmp w)

/-- No link is made. -/
def NoNewLinks (fs₀ fs : Disk) : Prop := ∀ q t, fs q = some (.link t) → fs₀ q = some (.link t)

/-- Nothing changes but touched paths and temporary names. -/
def OnlyTouched (plan : BundlePlan) (fs₀ fs : Disk) : Prop :=
  ∀ q, q ∉ _touched plan → (∀ w ∈ Dict.keys plan.write, q ≠ tmp w) → fs q = fs₀ q

/-- Stable paths keep their links and stay files. -/
def StableKept (plan : BundlePlan) (fs₀ fs : Disk) : Prop :=
  ∀ q, Stable plan fs₀ q → (∀ t, fs₀ q = some (.link t) → fs q = some (.link t)) ∧
    ∀ c, fs₀ q = some (.file c) → ∃ c', fs q = some (.file c')

theorem noNewLinks_refl : NoNewLinks fs₀ fs₀ := fun _ _ h => h

theorem onlyTouched_refl : OnlyTouched plan fs₀ fs₀ := fun _ _ _ => rfl

/-- The results of a write: nothing, the temporary file, the file at the end of the path's links written, with or
without the temporary file, or the temporary file moved to the path. -/
theorem write_cases {fs : Disk} {w : Str} (htmp : ¬ IsLink fs (tmp w)) (content : Str) (steps : Nat) :
    write_command w content steps fs = fs ∨
    write_command w content steps fs = overwrite fs (tmp w) content ∨
    (∃ n ≤ maxLinks, ∃ f c, Leads (overwrite fs (tmp w) content) n w f ∧
      overwrite fs (tmp w) content f = some (.file c) ∧ ∃ new, (f ≠ tmp w → new = content) ∧
      (write_command w content steps fs = overwrite (overwrite fs (tmp w) content) f new ∨
        write_command w content steps fs = unlink (overwrite (overwrite fs (tmp w) content) f new) (tmp w))) ∨
    (read (overwrite fs (tmp w) content) w = none ∧
      write_command w content steps fs =
        Function.update (Function.update (overwrite fs (tmp w) content) w (some (.file content))) (tmp w) none) := by
  by_cases h0 : steps = 0
  · exact .inl (by simp [write_command, h0])
  by_cases h1 : steps = 1
  · exact .inr (.inl (by simp [write_command, h1, follow_of_not_link htmp]))
  have hsaved : overwrite fs (tmp w) content (tmp w) = some (.file content) := by simp [overwrite]
  cases hread : read (overwrite fs (tmp w) content) w with
  | none =>
    refine .inr (.inr (.inr ⟨rfl, ?_⟩))
    simp [write_command, h0, h1, follow_of_not_link htmp, hread, hsaved]
  | some c =>
    obtain ⟨n, hn, f, hleads, hfile⟩ := read_eq_some.mp hread
    have hfollow : follow (overwrite fs (tmp w) content) maxLinks w = some f := follow_eq_some.mpr ⟨n, hn, hleads⟩
    refine .inr (.inr (.inl ⟨n, hn, f, c, hleads, hfile,
      (read (overwrite (overwrite fs (tmp w) content) f []) (tmp w)).getD [], ?_, ?_⟩))
    · intro hf
      have hnode : overwrite (overwrite fs (tmp w) content) f [] (tmp w) = some (.file content) := by
        rw [overwrite, Function.update_of_ne (Ne.symm hf), hsaved]
      have hr : read (overwrite (overwrite fs (tmp w) content) f []) (tmp w) = some content :=
        read_eq_some.mpr ⟨0, Nat.zero_le _, tmp w, .here (not_isLink_of_file hnode), hnode⟩
      rw [hr]
      rfl
    · by_cases h2 : steps = 2
      · exact .inl (by simp [write_command, h2, follow_of_not_link htmp, hread, hfollow])
      · exact .inr (by simp [write_command, h0, h1, h2, follow_of_not_link htmp, hread, hfollow])

/-- A way in the files with the temporary one is a way in those before the commands. -/
theorem leads_before {fs : Disk} (hlinks : NoNewLinks fs₀ fs) {w content : Str} {n : Nat} {p f : Str}
    (h : Leads (overwrite fs (tmp w) content) n p f) (hf : ¬ IsLink fs₀ f) : Leads fs₀ n p f := by
  refine h.keep (fun r t _ hr => hlinks r t ?_) hf
  by_cases hrt : r = tmp w
  · simp [hrt, overwrite] at hr
  · simpa [overwrite, hrt] using hr

theorem Stable.ne_tmp {q w : Str} (h : Stable plan fs₀ q) (hw : w ∈ Dict.keys plan.write) : q ≠ tmp w := by
  rintro rfl
  exact h.2 w hw .refl

theorem Stable.on {q r : Str} (h : Stable plan fs₀ q) (hr : On fs₀ q r) : Stable plan fs₀ r := by
  obtain ⟨⟨n, hn, f, c, hleads, hfile⟩, hapart⟩ := h
  obtain ⟨m, hm, hrest⟩ := hleads.rest hr
  exact ⟨⟨m, hm.trans hn, f, c, hrest, hfile⟩, fun w hw htmp => hapart w hw (hr.trans htmp)⟩

/-- The way of a stable path, while the temporary file is there. -/
theorem Stable.leads {fs : Disk} (hstable : StableKept plan fs₀ fs) {q w : Str} (h : Stable plan fs₀ q)
    (hw : w ∈ Dict.keys plan.write) (content : Str) {n : Nat} {f : Str} (hleads : Leads fs₀ n q f) :
    Leads (overwrite fs (tmp w) content) n q f ∧ ∃ c, overwrite fs (tmp w) content f = some (.file c) := by
  have hf := h.on hleads.on
  obtain ⟨⟨m, -, g, c, hend, hfile⟩, -⟩ := hf
  obtain rfl : f = g := (Leads.here hleads.end_not_link).unique hend
  obtain ⟨c', hc'⟩ := (hstable f (h.on hleads.on)).2 c hfile
  have hnode : overwrite fs (tmp w) content f = some (.file c') := by
    rw [overwrite, Function.update_of_ne ((h.on hleads.on).ne_tmp hw), hc']
  refine ⟨hleads.keep (fun r t hr hlink => ?_) (not_isLink_of_file hnode), c', hnode⟩
  rw [overwrite, Function.update_of_ne ((h.on hr).ne_tmp hw)]
  exact (hstable r (h.on hr)).1 t hlink

section

variable {fs : Disk} {w content : Str}

theorem write_links (hplain : Plain plan fs₀ family) (hlinks : NoNewLinks fs₀ fs) (hw : w ∈ Dict.keys plan.write)
    (steps : Nat) : NoNewLinks fs₀ (write_command w content steps fs) := by
  have htmp : ¬ IsLink fs (tmp w) := fun ⟨t, ht⟩ => hplain.no_link w hw ⟨t, hlinks _ _ ht⟩
  have hover : ∀ {gs : Disk} (f c : Str), NoNewLinks fs₀ gs → NoNewLinks fs₀ (overwrite gs f c) := by
    intro gs f c hgs q t hq
    by_cases hqf : q = f
    · simp [hqf, overwrite] at hq
    · exact hgs q t (by simpa [overwrite, hqf] using hq)
  have hgone : ∀ {gs : Disk} (f : Str), NoNewLinks fs₀ gs → NoNewLinks fs₀ (unlink gs f) := by
    intro gs f hgs q t hq
    by_cases hqf : q = f
    · simp [hqf, unlink] at hq
    · exact hgs q t (by simpa [unlink, hqf] using hq)
  rcases write_cases htmp content steps with h | h | ⟨n, -, f, c, -, -, new, -, h | h⟩ | ⟨-, h⟩ <;> rw [h]
  · exact hlinks
  · exact hover _ _ hlinks
  · exact hover _ _ (hover _ _ hlinks)
  · exact hgone _ (hover _ _ (hover _ _ hlinks))
  · exact hgone _ (hover _ _ (hover _ _ hlinks))

theorem write_stable (hplain : Plain plan fs₀ family) (hlinks : NoNewLinks fs₀ fs) (hstable : StableKept plan fs₀ fs)
    (hw : w ∈ Dict.keys plan.write) (steps : Nat) : StableKept plan fs₀ (write_command w content steps fs) := by
  have htmp : ¬ IsLink fs (tmp w) := fun ⟨t, ht⟩ => hplain.no_link w hw ⟨t, hlinks _ _ ht⟩
  have hsaved : StableKept plan fs₀ (overwrite fs (tmp w) content) := by
    intro q hq
    rw [overwrite, Function.update_of_ne (hq.ne_tmp hw)]
    exact hstable q hq
  have hgone : ∀ {gs : Disk}, StableKept plan fs₀ gs → StableKept plan fs₀ (unlink gs (tmp w)) := by
    intro gs hgs q hq
    rw [unlink, Function.update_of_ne (hq.ne_tmp hw)]
    exact hgs q hq
  have hcopied : ∀ f c new, overwrite fs (tmp w) content f = some (.file c) →
      StableKept plan fs₀ (overwrite (overwrite fs (tmp w) content) f new) := by
    intro f c new hf q hq
    by_cases hqf : q = f
    · subst hqf
      refine ⟨fun t ht => ?_, fun _ _ => ⟨new, by simp [overwrite]⟩⟩
      rw [(hsaved q hq).1 t ht] at hf
      cases hf
    · rw [overwrite, Function.update_of_ne hqf]
      exact hsaved q hq
  rcases write_cases htmp content steps with h | h | ⟨n, -, f, c, -, hf, new, -, h | h⟩ | ⟨hnone, h⟩ <;> rw [h]
  · exact hstable
  · exact hsaved
  · exact hcopied f c new hf
  · exact hgone (hcopied f c new hf)
  · intro q hq
    have hqw : q ≠ w := by
      rintro rfl
      obtain ⟨n, hn, f, c, hleads, -⟩ := hq.1
      obtain ⟨hleads', c', hf⟩ := hq.leads hstable hw content hleads
      rw [read_eq_some.mpr ⟨n, hn, f, hleads', hf⟩] at hnone
      cases hnone
    rw [Function.update_of_ne (hq.ne_tmp hw), Function.update_of_ne hqw]
    exact hsaved q hq

/-- A write that is covered changes only touched paths and temporary names. -/
theorem write_touched (hplain : Plain plan fs₀ family) (hlinks : NoNewLinks fs₀ fs) (honly : OnlyTouched plan fs₀ fs)
    (hw : w ∈ Dict.keys plan.write)
    (hcover : ∀ n ≤ maxLinks, ∀ f old, Leads fs₀ n w f → fs₀ f = some (.file old) → f ∈ _touched plan ∨ old = content)
    (steps : Nat) : OnlyTouched plan fs₀ (write_command w content steps fs) := by
  have htmp : ¬ IsLink fs (tmp w) := fun ⟨t, ht⟩ => hplain.no_link w hw ⟨t, hlinks _ _ ht⟩
  have hsaved : OnlyTouched plan fs₀ (overwrite fs (tmp w) content) := by
    intro q hq hqtmp
    rw [overwrite, Function.update_of_ne (hqtmp w hw)]
    exact honly q hq hqtmp
  have hgone : ∀ {gs : Disk}, OnlyTouched plan fs₀ gs → OnlyTouched plan fs₀ (unlink gs (tmp w)) := by
    intro gs hgs q hq hqtmp
    rw [unlink, Function.update_of_ne (hqtmp w hw)]
    exact hgs q hq hqtmp
  have hcopied : ∀ n ≤ maxLinks, ∀ f c new, Leads (overwrite fs (tmp w) content) n w f →
      overwrite fs (tmp w) content f = some (.file c) → (f ≠ tmp w → new = content) →
      OnlyTouched plan fs₀ (overwrite (overwrite fs (tmp w) content) f new) := by
    intro n hn f c new hleads hf hnew q hq hqtmp
    by_cases hqf : q = f
    · -- the file at the end is not touched, so it was there before, and has the content already
      subst hqf
      have hbefore : fs₀ q = some (.file c) := by rw [← hsaved q hq hqtmp, hf]
      rcases hcover n hn q c (leads_before hlinks hleads (not_isLink_of_file hbefore)) hbefore with h | h
      · exact absurd h hq
      · rw [overwrite, Function.update_self, hnew (hqtmp w hw), hbefore, h]
    · rw [overwrite, Function.update_of_ne hqf]
      exact hsaved q hq hqtmp
  rcases write_cases htmp content steps with h | h | ⟨n, hn, f, c, hleads, hf, new, hnew, h | h⟩ | ⟨-, h⟩ <;> rw [h]
  · exact honly
  · exact hsaved
  · exact hcopied n hn f c new hleads hf hnew
  · exact hgone (hcopied n hn f c new hleads hf hnew)
  · intro q hq hqtmp
    have hqw : q ≠ w := by
      rintro rfl
      exact hq ((mem_touched plan).mpr (.inl hw))
    rw [Function.update_of_ne (hqtmp w hw), Function.update_of_ne hqw]
    exact hsaved q hq hqtmp

end

/-! ## Whole runs -/

/-- The write leaves files that are not touched as they are. -/
def CoveredWrite (plan : BundlePlan) (fs₀ : Disk) (e : Str × Str) : Prop :=
  ∀ n ≤ maxLinks, ∀ f old, Leads fs₀ n e.1 f → fs₀ f = some (.file old) → f ∈ _touched plan ∨ old = e.2

/-- A command of the plan that is covered -/
def CoveredCommand (plan : BundlePlan) (fs₀ : Disk) : Command → Prop
  | .write path content => (path, content) ∈ plan.write ∧ CoveredWrite plan fs₀ (path, content)
  | .remove path => path ∈ _touched plan

theorem mem_keys {e : Str × Str} (h : e ∈ plan.write) : e.1 ∈ Dict.keys plan.write := List.mem_map_of_mem h

theorem command_kept (hplain : Plain plan fs₀ family) {fs : Disk} {c : Command} (hc : CoveredCommand plan fs₀ c)
    (hlinks : NoNewLinks fs₀ fs) (honly : OnlyTouched plan fs₀ fs) (steps : Nat) :
    NoNewLinks fs₀ (c.run steps fs) ∧ OnlyTouched plan fs₀ (c.run steps fs) := by
  cases c with
  | write path content =>
    have hw := mem_keys hc.1
    exact ⟨write_links hplain hlinks hw steps, write_touched hplain hlinks honly hw hc.2 steps⟩
  | remove path =>
    rw [Command.run, remove_command]
    split
    · exact ⟨hlinks, honly⟩
    · refine ⟨fun q t hq => ?_, fun q hq hqtmp => ?_⟩
      · by_cases hqp : q = path
        · simp [hqp, unlink] at hq
        · exact hlinks q t (by simpa [unlink, hqp] using hq)
      · have hqp : q ≠ path := by
          rintro rfl
          exact hq hc
        rw [unlink, Function.update_of_ne hqp]
        exact honly q hq hqtmp

theorem commands_kept (hplain : Plain plan fs₀ family) (cs : List Command) (hcs : ∀ c ∈ cs, CoveredCommand plan fs₀ c)
    {fs : Disk} (hlinks : NoNewLinks fs₀ fs) (honly : OnlyTouched plan fs₀ fs) :
    NoNewLinks fs₀ (cs.foldl (fun fs c => c.run allSteps fs) fs) ∧
      OnlyTouched plan fs₀ (cs.foldl (fun fs c => c.run allSteps fs) fs) := by
  induction cs generalizing fs with
  | nil => exact ⟨hlinks, honly⟩
  | cons c cs ih =>
    obtain ⟨h₁, h₂⟩ := command_kept hplain (hcs c (by simp)) hlinks honly allSteps
    exact ih (fun d hd => hcs d (by simp [hd])) h₁ h₂

theorem writes_stable (hplain : Plain plan fs₀ family) {es : List (Str × Str)} (hes : ∀ e ∈ es, e ∈ plan.write)
    {fs : Disk} (hlinks : NoNewLinks fs₀ fs) (hstable : StableKept plan fs₀ fs) :
    StableKept plan fs₀ ((es.map fun e => Command.write e.1 e.2).foldl (fun fs c => c.run allSteps fs) fs) := by
  induction es generalizing fs with
  | nil => exact hstable
  | cons e es ih =>
    have hw := mem_keys (hes e (by simp))
    exact ih (fun d hd => hes d (by simp [hd])) (write_links hplain hlinks hw allSteps)
      (write_stable hplain hlinks hstable hw allSteps)

/-- Where only touched paths and temporary names have changed, the revert makes each touched path read as before. -/
theorem reverted (hplain : Plain plan fs₀ family) (hecho : ∀ s, '\\' ∉ s → echo s = s) {fs : Disk}
    (honly : OnlyTouched plan fs₀ fs) {p : Str} (hp : p ∈ _touched plan) :
    read (revert_script echo (snapshot_command plan fs₀) fs) p = read fs₀ p := by
  cases hread : read fs₀ p with
  | none =>
    have hnone : revert_script echo (snapshot_command plan fs₀) fs p = none := by
      rw [revert_at hplain hecho, if_pos hp, hread]
      rfl
    simp [LinkedFiles.read, follow_of_not_link (not_isLink_of_none hnone), hnone]
  | some c =>
    obtain ⟨n, hn, f, hleads, hfile⟩ := read_eq_some.mp hread
    -- every name on the way is as it was: a touched one is put back, another one has not changed
    have hway : ∀ r, On fs₀ p r → revert_script echo (snapshot_command plan fs₀) fs r = fs₀ r := by
      intro r hr
      obtain ⟨m, hm, hrest⟩ := hleads.rest hr
      have hreads : read fs₀ r = some c := read_eq_some.mpr ⟨m, hm.trans hn, f, hrest, hfile⟩
      rw [revert_at hplain hecho]
      by_cases hrt : r ∈ _touched plan
      · simp [hrt, hreads]
      · rw [if_neg hrt]
        refine honly r hrt fun w hw htmp => ?_
        exact hplain.apart p hp w hw (htmp ▸ hr)
    have hend : revert_script echo (snapshot_command plan fs₀) fs f = some (.file c) := by rw [hway f hleads.on, hfile]
    refine read_eq_some.mpr ⟨n, hn, f, hleads.keep (fun r t hr hlink => ?_) (not_isLink_of_file hend), hend⟩
    rw [hway r hr, hlink]

/-- A write through the links of a path ends with the content in the file at their end. -/
theorem write_complete {fs : Disk} {w content f c : Str} {n : Nat} (htmp : ¬ IsLink fs (tmp w)) (hn : n ≤ maxLinks)
    (hleads : Leads (overwrite fs (tmp w) content) n w f) (hfile : overwrite fs (tmp w) content f = some (.file c))
    (hf : f ≠ tmp w) :
    write_command w content allSteps fs = unlink (overwrite (overwrite fs (tmp w) content) f content) (tmp w) := by
  have hread : read (overwrite fs (tmp w) content) w = some c := read_eq_some.mpr ⟨n, hn, f, hleads, hfile⟩
  have hfollow : follow (overwrite fs (tmp w) content) maxLinks w = some f := follow_eq_some.mpr ⟨n, hn, hleads⟩
  have hnode : overwrite (overwrite fs (tmp w) content) f [] (tmp w) = some (.file content) := by
    rw [overwrite, Function.update_of_ne (Ne.symm hf), overwrite, Function.update_self]
  have hcat : read (overwrite (overwrite fs (tmp w) content) f []) (tmp w) = some content :=
    read_eq_some.mpr ⟨0, Nat.zero_le _, tmp w, .here (not_isLink_of_file hnode), hnode⟩
  simp [write_command, allSteps, follow_of_not_link htmp, hread, hfollow, hcat]

/-- A write that is not covered, after writes that are, is not undone. -/
theorem not_reverted (hplain : Plain plan fs₀ family) (hecho : ∀ s, '\\' ∉ s → echo s = s) {fs : Disk}
    (content : Str) (hlinks : NoNewLinks fs₀ fs) (hstable : StableKept plan fs₀ fs) {w : Str}
    (hw : w ∈ Dict.keys plan.write) {n : Nat} (hn : n ≤ maxLinks) {f old : Str} (hleads : Leads fs₀ n w f) (hfile : fs₀ f = some (.file old))
    (hf : f ∉ _touched plan) :
    read (revert_script echo (snapshot_command plan fs₀) (write_command w content allSteps fs)) w = some content := by
  have hwt : w ∈ _touched plan := (mem_touched plan).mpr (.inl hw)
  have hws : Stable plan fs₀ w := ⟨⟨n, hn, f, old, hleads, hfile⟩, hplain.apart w hwt⟩
  obtain ⟨hsaved, c, hc⟩ := hws.leads hstable hw content hleads
  have hftmp : f ≠ tmp w := (hws.on hleads.on).ne_tmp hw
  have htmp : ¬ IsLink fs (tmp w) := fun ⟨t, ht⟩ => hplain.no_link w hw ⟨t, hlinks _ _ ht⟩
  have hresult := write_complete htmp hn hsaved hc hftmp
  have hend : revert_script echo (snapshot_command plan fs₀) (write_command w content allSteps fs) f =
      some (.file content) := by
    rw [revert_at hplain hecho, if_neg hf, hresult, unlink, Function.update_of_ne hftmp, overwrite, Function.update_self]
  refine read_eq_some.mpr ⟨n, hn, f, hleads.keep (fun r t hr hlink => ?_) (not_isLink_of_file hend), hend⟩
  have hrs := hws.on hr
  rw [revert_at hplain hecho]
  by_cases hrt : r ∈ _touched plan
  · -- a touched link is put back
    obtain ⟨m, hm, hrest⟩ := hleads.rest hr
    have hreads : read fs₀ r = some old := read_eq_some.mpr ⟨m, hm.trans hn, f, hrest, hfile⟩
    simp [hrt, hreads, hlink]
  · -- another one has stayed
    have hrf : r ≠ f := by
      rintro rfl
      rw [hfile] at hlink
      cases hlink
    rw [if_neg hrt, hresult, unlink, Function.update_of_ne (hrs.ne_tmp hw), overwrite, Function.update_of_ne hrf,
      overwrite, Function.update_of_ne (hrs.ne_tmp hw)]
    exact (hstable r hrs).1 t hlink

/-- The first write of a list that is not covered -/
theorem exists_first_uncovered {es : List (Str × Str)} (h : ¬ ∀ e ∈ es, CoveredWrite plan fs₀ e) :
    ∃ pre e post, es = pre ++ e :: post ∧ (∀ d ∈ pre, CoveredWrite plan fs₀ d) ∧ ¬ CoveredWrite plan fs₀ e := by
  induction es with
  | nil => exact absurd (by simp) h
  | cons e es ih =>
    by_cases he : CoveredWrite plan fs₀ e
    · obtain ⟨pre, d, post, rfl, hpre, hd⟩ := ih fun hall => h (by simpa [he] using hall)
      exact ⟨e :: pre, d, post, rfl, by simpa [he] using hpre, hd⟩
    · exact ⟨[], e, es, rfl, by simp, he⟩

theorem restored_of_covered (hplain : Plain plan fs₀ family) (hecho : ∀ s, '\\' ∉ s → echo s = s)
    (hcover : Covered plan fs₀) : Restored echo plan fs₀ := by
  intro done steps p hp
  have hall : ∀ c ∈ commands plan, CoveredCommand plan fs₀ c := by
    intro c hc
    rcases List.mem_append.mp hc with hc | hc
    · obtain ⟨e, he, rfl⟩ := List.mem_map.mp hc
      exact ⟨he, hcover e he⟩
    · obtain ⟨path, hpath, rfl⟩ := List.mem_map.mp hc
      exact (mem_touched plan).mpr (.inr hpath)
  obtain ⟨hlinks, honly⟩ := commands_kept hplain ((commands plan).take done)
    (fun c hc => hall c (List.mem_of_mem_take hc)) noNewLinks_refl onlyTouched_refl
  refine reverted hplain hecho ?_ hp
  rw [during]
  cases hc : (commands plan)[done]? with
  | none => exact honly
  | some c => exact (command_kept hplain (hall c (List.mem_of_getElem? hc)) hlinks honly steps).2

/-- In every state of a run the revert restores what every touched path reads exactly where each written path that exists
ends at a touched file, or at one that has the content already. -/
theorem restored_iff (hplain : Plain plan fs₀ family) (hecho : ∀ s, '\\' ∉ s → echo s = s) :
    Restored echo plan fs₀ ↔ Covered plan fs₀ := by
  refine ⟨fun hrestored => ?_, restored_of_covered hplain hecho⟩
  by_contra hcover
  obtain ⟨pre, ⟨w, content⟩, post, hwrite, hpre, he⟩ := exists_first_uncovered hcover
  obtain ⟨n, hn, f, old, hleads, hfile, hf, hne⟩ : ∃ n ≤ maxLinks, ∃ f old, Leads fs₀ n w f ∧
      fs₀ f = some (.file old) ∧ f ∉ _touched plan ∧ old ≠ content := by
    simpa [CoveredWrite] using he
  have hmem : ∀ e ∈ pre, e ∈ plan.write := fun e he => by simp [hwrite, he]
  have hw : w ∈ Dict.keys plan.write := mem_keys (show (w, content) ∈ plan.write by simp [hwrite])
  have hstart : (commands plan).take pre.length = pre.map fun e => Command.write e.1 e.2 := by
    simp [commands, hwrite]
  have hnext : (commands plan)[pre.length]? = some (.write w content) := by
    simp [commands, hwrite]
  have hkept := commands_kept hplain (pre.map fun e => Command.write e.1 e.2)
    (fun c hc => by
      obtain ⟨e, he, rfl⟩ := List.mem_map.mp hc
      exact ⟨hmem e he, hpre e he⟩) noNewLinks_refl onlyTouched_refl
  have hstable : StableKept plan fs₀ fs₀ := fun q _ => ⟨fun _ h => h, fun c h => ⟨c, h⟩⟩
  have hafter := not_reverted hplain hecho content hkept.1
    (writes_stable hplain hmem noNewLinks_refl hstable) hw hn hleads hfile hf
  have hbefore : read fs₀ w = some old := read_eq_some.mpr ⟨n, hn, f, hleads, hfile⟩
  have hstate := hrestored pre.length allSteps w ((mem_touched plan).mpr (.inl hw))
  rw [during, hnext, hstart] at hstate
  rw [hbefore] at hstate
  exact hne (Option.some.inj (hstate.symm.trans hafter))

end

/-! ## A file and a link -/

def issue : Str := lit "/etc/issue"

def issuePlan : BundlePlan := ⟨[(issue, lit "new")], [], [], .empty⟩

def issueDisk : Disk := fun p => if p = issue then some (.file (lit "old")) else none

theorem issue_restored : Restored id issuePlan issueDisk := by
  have htouched : _touched issuePlan = [issue] := by with_unfolding_all decide
  have hnolink : ∀ p, ¬ IsLink issueDisk p := by
    rintro p ⟨t, ht⟩
    unfold issueDisk at ht
    split at ht <;> cases ht
  have hallowed : ∀ p ∈ _touched issuePlan, path_allowed p .linux = true := by
    rw [htouched]
    with_unfolding_all decide
  have hplain : Plain issuePlan issueDisk .linux := by
    refine ⟨hallowed, ?_, fun w _ => hnolink _, ?_⟩
    · rw [htouched]
      with_unfolding_all decide
    · intro p hp w _ hon
      rcases Relation.ReflTransGen.cases_head hon with h | ⟨r, hlink, -⟩
      · exact (plainPath_of_allowed (hallowed p hp)).not_tmp w h
      · exact hnolink p ⟨r, hlink⟩
  refine (restored_iff hplain fun _ _ => rfl).mpr ?_
  rintro e he n - f old hleads -
  obtain rfl : e = (issue, lit "new") := by simpa [issuePlan] using he
  cases hleads with
  | here _ => exact .inl (by simp [htouched])
  | link hlink _ => exact absurd ⟨_, hlink⟩ (hnolink _)

def site : Str := lit "/etc/apache2/sites-enabled/000-default.conf"

def available : Str := lit "/etc/apache2/sites-available/000-default.conf"

def sitePlan : BundlePlan := ⟨[(site, lit "new")], [], [], .empty⟩

/-- The enabled site is a link to the available one. -/
def siteDisk : Disk := fun p =>
  if p = site then some (.link available) else if p = available then some (.file (lit "old")) else none

/-- The site was written through its link, and the revert puts the link back, not the site. -/
theorem link_not_restored : path_allowed site .apache = true ∧ ¬ Restored id sitePlan siteDisk := by
  refine ⟨by with_unfolding_all decide, fun h => absurd (h 1 0 site (by with_unfolding_all decide)) ?_⟩
  with_unfolding_all decide

end BundleRevert
