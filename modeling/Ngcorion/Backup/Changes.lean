import Ngcorion.Backup.CiscoIOS
import Ngcorion.Backup.FileBundle
import Ngcorion.Backup.FortiOS
import Mathlib.Data.List.Dedup

/-!
# Changes between two backups

`compare` gives the difference between two backups of a device, and
`note_change` fills the change fields of a new backup from it. A backup noted
as unchanged may later be pruned as a duplicate.
-/
namespace Changes

open Text ConfigTree UnifiedDiff FileBundle

/-- How the texts of a family are compared. -/
inductive Handler where
  | cisco | fortinet | bundle | text
  deriving DecidableEq

def handler (u : Unicode) (family : Option Str) : Handler :=
  let family := u.lower (family.getD [])
  if family = lit "cisco" then .cisco
  else if family = lit "fortinet" then .fortinet
  else if family = lit "linux" ∨ family = lit "apache" ∨ family = lit "mongodb" then .bundle
  else .text

section
variable (u : Unicode) (difflib : Difflib)

/-- The section of one path of two bundles, where its contents differ. -/
def bundleSection (path : Str) : Option Str → Option Str → Option DiffSection
  | none, none => none
  | none, some b => some ⟨path ++ lit " (new file)", (lines b).map (DiffLine.mk .added)⟩
  | some a, none => some ⟨path ++ lit " (removed)", (lines a).map (DiffLine.mk .removed)⟩
  | some a, some b => if a = b then none else some ⟨path, _unified difflib (lines a) (lines b)⟩

def _bundle_diff (old_text new_text : Str) : ConfigDiff :=
  let old := parse_bundle old_text
  let new := parse_bundle new_text
  ⟨(allPaths old new).filterMap (fun p => bundleSection difflib p (Dict.get old p) (Dict.get new p)), [], []⟩

def _text_diff (old_text new_text : Str) : ConfigDiff :=
  let found := _unified difflib (splitlines old_text) (splitlines new_text)
  ⟨if found.any (fun l => l.op ≠ .context) then [⟨lit "configuration", found⟩] else [], [], []⟩

/-- The difference from the old text to the new one. A FortiOS text that cannot
be parsed is compared line by line. -/
def compare (family : Option Str) (old_text new_text : Str) : ConfigDiff :=
  match handler u family with
  | .cisco => CiscoIOS.diff_cisco u new_text old_text
  | .fortinet => (FortiOS.diff_fortios new_text old_text).getD (_text_diff difflib old_text new_text)
  | .bundle => _bundle_diff difflib old_text new_text
  | .text => _text_diff difflib old_text new_text

def counts (diff : ConfigDiff) : Nat × Nat := (diff.added, diff.removed)

inductive OriginKind where
  | first | unchanged | external | ngcorion

structure Origin where
  kind : OriginKind
  ref : Option Str

/-- The columns of a backup row that the change summary reads or writes. -/
structure DeviceBackup where
  id : Nat
  asset_id : Nat
  device_type : Option Str
  config_content : Str
  created_at : Option Nat
  confirmed_at : Option Nat
  previous_backup_id : Option Nat
  changed : Option Bool
  added_lines : Option Nat
  removed_lines : Option Nat
  change_origin : Option OriginKind
  change_ref : Option Str

/-- `backup.device_type or previous.device_type` -/
def familyOf (backup previous : DeviceBackup) : Option Str :=
  match backup.device_type with
  | none => previous.device_type
  | some [] => previous.device_type
  | some family => some family

/-- Fill the change fields of a new backup from the previous one; the database
is asked who changed the asset only when something changed. -/
def note_change (now : Nat) (origin_of_change : Nat → Option Nat → Nat → Origin) (backup : DeviceBackup)
    (previous : Option DeviceBackup) : DeviceBackup :=
  let created := backup.created_at.getD now
  let backup := { backup with created_at := some created }
  match previous with
  | none => { backup with changed := none, change_origin := some .first }
  | some previous =>
    let backup := { backup with previous_backup_id := some previous.id }
    let diff := compare u difflib (familyOf backup previous) previous.config_content backup.config_content
    if counts diff = (0, 0) then
      { backup with
        changed := some false, added_lines := some 0, removed_lines := some 0, change_origin := some .unchanged }
    else
      let since := previous.confirmed_at.orElse (fun _ => previous.created_at)
      let origin := origin_of_change backup.asset_id since created
      { backup with
        changed := some true, added_lines := some diff.added, removed_lines := some diff.removed
        change_origin := some origin.kind, change_ref := origin.ref }

/-- A new backup is noted as unchanged exactly when no changed line was counted. -/
theorem note_change_unchanged (now : Nat) (origin_of_change : Nat → Option Nat → Nat → Origin)
    (backup previous : DeviceBackup) :
    (note_change u difflib now origin_of_change backup (some previous)).changed = some false ↔
      counts (compare u difflib (familyOf backup previous) previous.config_content backup.config_content) = (0, 0) := by
  have hf : familyOf { backup with
      created_at := some (backup.created_at.getD now), previous_backup_id := some previous.id } previous =
      familyOf backup previous := rfl
  simp only [note_change, hf]
  split <;> simp_all

theorem counts_eq_zero (diff : ConfigDiff) :
    counts diff = (0, 0) ↔ ∀ s ∈ diff.sections, ∀ l ∈ s.lines, l.op = .context := by
  rw [counts, Prod.mk.injEq, ← is_empty_iff_counts]
  simp [ConfigDiff.is_empty, ConfigDiff.marks]

/-! ## Lines that the filter drops -/

/-- A differing line whose signed form does not read like a file header. -/
def visible : Edit → Bool
  | .keep _ => false
  | .delete l => !startsWith (lit "--") l
  | .insert l => !startsWith (lit "++") l

theorem unifiedLine_delete (l : Str) :
    unifiedLine ('-' :: l) = if startsWith (lit "--") l then none else some ⟨.removed, l⟩ := by
  simp [unifiedLine, startsWith, lit, List.isPrefixOf]

theorem unifiedLine_insert (l : Str) :
    unifiedLine ('+' :: l) = if startsWith (lit "++") l then none else some ⟨.added, l⟩ := by
  simp [unifiedLine, startsWith, lit, List.isPrefixOf]

/-- Only a signed line can count as a change. -/
theorem unifiedLine_unsigned (line : Str) (h : isSigned line = false) (l : DiffLine)
    (hl : unifiedLine line = some l) : l.op = .context := by
  unfold unifiedLine at hl
  split at hl
  · simp at hl
  · split at hl
    · cases hl
      rfl
    · split at hl
      · simp [isSigned] at h
      · simp [isSigned] at h
      · cases hl
        rfl

theorem unifiedLine_header (s : Str) :
    unifiedLine (lit "---" ++ s) = none ∧ unifiedLine (lit "+++" ++ s) = none := by
  simp [unifiedLine]

/-- The counted lines of a unified diff are its visible edits. -/
theorem unified_quiet (a b : List Str) (hab : a ≠ b) :
    (∀ l ∈ _unified difflib a b, l.op = .context) ↔ ∀ e ∈ difflib.script a b, visible e = false := by
  obtain ⟨from_header, to_header, body, hdiff, -, hsigned⟩ := difflib.emits a b hab
  have hmem : ∀ line, line ∈ body ∧ isSigned line = true ↔
      ∃ e ∈ difflib.script a b, e.signed = some line := by
    intro line
    rw [← List.mem_filter, hsigned, List.mem_filterMap]
  simp only [_unified, hdiff, List.filterMap_cons, (unifiedLine_header _).1, (unifiedLine_header _).2]
  constructor
  · intro h e he
    cases e with
    | keep l => rfl
    | delete l =>
      by_contra hv
      have hb := (hmem ('-' :: l)).mpr ⟨_, he, rfl⟩
      have hl : unifiedLine ('-' :: l) = some ⟨.removed, l⟩ := by
        rw [unifiedLine_delete, if_neg (by simpa [visible] using hv)]
      exact absurd (h _ (List.mem_filterMap.mpr ⟨_, hb.1, hl⟩)) (by simp)
    | insert l =>
      by_contra hv
      have hb := (hmem ('+' :: l)).mpr ⟨_, he, rfl⟩
      have hl : unifiedLine ('+' :: l) = some ⟨.added, l⟩ := by
        rw [unifiedLine_insert, if_neg (by simpa [visible] using hv)]
      exact absurd (h _ (List.mem_filterMap.mpr ⟨_, hb.1, hl⟩)) (by simp)
  · intro h l hl
    obtain ⟨line, hline, hl⟩ := List.mem_filterMap.mp hl
    by_cases hs : isSigned line = true
    · obtain ⟨e, he, hsign⟩ := (hmem line).mp ⟨hline, hs⟩
      have hv := h e he
      cases e with
      | keep t => simp [Edit.signed] at hsign
      | delete t =>
        simp only [Edit.signed, Option.some.injEq] at hsign
        simp only [visible, Bool.not_eq_false'] at hv
        rw [← hsign, unifiedLine_delete, if_pos hv] at hl
        simp at hl
      | insert t =>
        simp only [Edit.signed, Option.some.injEq] at hsign
        simp only [visible, Bool.not_eq_false'] at hv
        rw [← hsign, unifiedLine_insert, if_pos hv] at hl
        simp at hl
    · exact unifiedLine_unsigned line (by simpa using hs) l hl

/-! ## When no change goes unnoticed -/

/-- Families compared by their files. -/
def ByFiles (family : Option Str) : Prop := handler u family = .bundle

/-- Texts compared line by line: every other family, and a FortiOS text that
cannot be parsed. -/
def ByLines (family : Option Str) (old_text new_text : Str) : Prop :=
  handler u family = .text ∨ handler u family = .fortinet ∧ FortiOS.diff_fortios new_text old_text = none

/-- The same files, or the same lines. -/
def Same (family : Option Str) (old_text new_text : Str) : Prop :=
  if handler u family = .bundle then ∀ path, Dict.get (parse_bundle old_text) path = Dict.get (parse_bundle new_text) path
  else splitlines old_text = splitlines new_text

/-- No change is counted as none, and no changed backup is noted as unchanged. -/
def NoSilentChange (family : Option Str) (old_text new_text : Str) : Prop :=
  (counts (compare u difflib family old_text new_text) = (0, 0) → Same u family old_text new_text) ∧
  ∀ now origin_of_change backup previous, familyOf backup previous = family →
    previous.config_content = old_text → backup.config_content = new_text →
    (note_change u difflib now origin_of_change backup (some previous)).changed = some false →
    Same u family old_text new_text

/-- Some line that differs shows in the preview. -/
def VisibleEdit (a b : List Str) : Prop := ∃ e ∈ difflib.script a b, visible e = true

/-- A file that only one bundle has, or one with a visible edit. -/
def VisibleFile : Option Str → Option Str → Prop
  | none, none => False
  | some a, some b => a ≠ b ∧ VisibleEdit difflib (lines a) (lines b)
  | _, _ => True

/-- What the comparison sees of the change between two texts. -/
def VisibleChange (family : Option Str) (old_text new_text : Str) : Prop :=
  if handler u family = .bundle then
    ∃ path, VisibleFile difflib (Dict.get (parse_bundle old_text) path) (Dict.get (parse_bundle new_text) path)
  else VisibleEdit difflib (splitlines old_text) (splitlines new_text)

theorem unified_quiet_iff (a b : List Str) (hab : a ≠ b) :
    (∀ l ∈ _unified difflib a b, l.op = .context) ↔ ¬ VisibleEdit difflib a b := by
  rw [unified_quiet difflib a b hab]
  simp [VisibleEdit]

theorem text_diff_silent (old_text new_text : Str) (h : splitlines old_text ≠ splitlines new_text) :
    counts (_text_diff difflib old_text new_text) = (0, 0) ↔
      ¬ VisibleEdit difflib (splitlines old_text) (splitlines new_text) := by
  rw [← unified_quiet_iff difflib _ _ h, counts_eq_zero]
  simp only [_text_diff]
  split
  · simp
  · rename_i hq
    simpa using hq

/-- A path is silent when its contents agree or nothing of their difference shows. -/
theorem bundleSection_silent (path : Str) (a b : Option Str) :
    (∀ s, bundleSection difflib path a b = some s → ∀ l ∈ s.lines, l.op = .context) ↔
      ¬ VisibleFile difflib a b := by
  have hfull : ∀ (t : Str) (op : Op), op ≠ .context → ¬ ∀ l ∈ (lines t).map (DiffLine.mk op), l.op = .context := by
    intro t op hop h
    obtain ⟨x, xs, hx⟩ := List.exists_cons_of_ne_nil (lines_ne_nil t)
    exact hop (h ⟨op, x⟩ (by simp [hx]))
  cases a with
  | none =>
    cases b with
    | none => simp [bundleSection, VisibleFile]
    | some b => simpa [bundleSection, VisibleFile] using hfull b .added (by simp)
  | some a =>
    cases b with
    | none => simpa [bundleSection, VisibleFile] using hfull a .removed (by simp)
    | some b =>
      by_cases hab : a = b
      · simp [bundleSection, VisibleFile, hab]
      · have hlines : lines a ≠ lines b := by
          intro h
          have hun := congrArg unlines h
          simp only [unlines_lines] at hun
          exact hab hun
        have hquiet := unified_quiet_iff difflib (lines a) (lines b) hlines
        simpa [bundleSection, VisibleFile, hab] using hquiet

theorem mem_allPaths (old new : List (Str × Str)) (path : Str) :
    path ∈ allPaths old new ↔ path ∈ Dict.keys old ∨ path ∈ Dict.keys new := by
  rw [allPaths, List.mem_insertionSort, List.mem_dedup, List.mem_append]

theorem bundle_diff_silent (old_text new_text : Str) :
    counts (_bundle_diff difflib old_text new_text) = (0, 0) ↔
      ¬ ∃ path, VisibleFile difflib (Dict.get (parse_bundle old_text) path) (Dict.get (parse_bundle new_text) path) := by
  rw [counts_eq_zero, not_exists]
  simp only [_bundle_diff, List.mem_filterMap]
  constructor
  · intro h path
    by_cases hp : path ∈ allPaths (parse_bundle old_text) (parse_bundle new_text)
    · rw [← bundleSection_silent difflib path]
      exact fun s hs => h s ⟨path, hp, hs⟩
    · rw [mem_allPaths, not_or] at hp
      simp [(Dict.get_eq_none _ _).mpr hp.1, (Dict.get_eq_none _ _).mpr hp.2, VisibleFile]
  · rintro h s ⟨path, hp, hs⟩
    exact (bundleSection_silent difflib path _ _).mpr (h path) s hs

/-- The comparison of a family by files or by lines, as one of the two. -/
theorem compare_silent (family : Option Str) (old_text new_text : Str)
    (h : ByFiles u family ∨ ByLines u family old_text new_text) (hdiff : ¬ Same u family old_text new_text) :
    counts (compare u difflib family old_text new_text) = (0, 0) ↔
      ¬ VisibleChange u difflib family old_text new_text := by
  rcases h with h | h | ⟨h, hnone⟩
  · simp only [ByFiles] at h
    simp only [compare, VisibleChange, h, if_true]
    exact bundle_diff_silent difflib old_text new_text
  · simp only [Same, h, reduceCtorEq, if_false] at hdiff
    simp only [compare, VisibleChange, h, reduceCtorEq, if_false]
    exact text_diff_silent difflib old_text new_text hdiff
  · simp only [Same, h, reduceCtorEq, if_false] at hdiff
    simp only [compare, VisibleChange, h, hnone, Option.getD_none, reduceCtorEq, if_false]
    exact text_diff_silent difflib old_text new_text hdiff

/-- A change goes unnoticed exactly when every line of it, once signed, reads
like a header of the diff: a removed line that begins with two dashes, an added
one that begins with two plus signs. -/
theorem noSilentChange_iff (family : Option Str) (old_text new_text : Str)
    (h : ByFiles u family ∨ ByLines u family old_text new_text) :
    NoSilentChange u difflib family old_text new_text ↔
      Same u family old_text new_text ∨ VisibleChange u difflib family old_text new_text := by
  by_cases hsame : Same u family old_text new_text
  · simp only [hsame, true_or, iff_true]
    exact ⟨fun _ => hsame, fun _ _ _ _ _ _ _ _ => hsame⟩
  have hsilent := compare_silent u difflib family old_text new_text h hsame
  simp only [hsame, false_or]
  constructor
  · intro hn
    by_contra hv
    exact hsame (hn.1 (hsilent.mpr hv))
  · intro hv
    have hloud : counts (compare u difflib family old_text new_text) ≠ (0, 0) := fun hc => hsilent.mp hc hv
    refine ⟨fun hc => absurd hc hloud, ?_⟩
    rintro now origin_of_change backup previous rfl rfl rfl hc
    exact absurd ((note_change_unchanged u difflib now origin_of_change backup previous).mp hc) hloud

end

/-- The bundle of a host with one file. -/
def issueBundle (content : Str) : Str := bundleText none [(lit "/etc/issue", content)]

/-- A line of dashes gives way to a line of plus signs, and the new backup
counts no changed line. -/
theorem issueBundle_silent : ¬ NoSilentChange ascii disjointDifflib (some (lit "linux"))
    (issueBundle (lit "-- maintenance --")) (issueBundle (lit "++ open ++")) := by
  rintro ⟨h, -⟩
  have hc : counts (compare ascii disjointDifflib (some (lit "linux")) (issueBundle (lit "-- maintenance --"))
      (issueBundle (lit "++ open ++"))) = (0, 0) := by with_unfolding_all decide
  have hh : handler ascii (some (lit "linux")) = .bundle := by with_unfolding_all decide
  have hs := h hc
  simp only [Same, hh, if_true] at hs
  exact absurd (hs (lit "/etc/issue")) (by with_unfolding_all decide)

/-- The same change of a file without dashes is noticed. -/
theorem issueBundle_noticed : NoSilentChange ascii disjointDifflib (some (lit "linux"))
    (issueBundle (lit "maintenance")) (issueBundle (lit "open")) := by
  have hh : handler ascii (some (lit "linux")) = .bundle := by with_unfolding_all decide
  rw [noSilentChange_iff ascii disjointDifflib _ _ _ (Or.inl hh)]
  right
  simp only [VisibleChange, hh, if_true]
  have hold : Dict.get (parse_bundle (issueBundle (lit "maintenance"))) (lit "/etc/issue") = some (lit "maintenance") := by
    with_unfolding_all decide
  have hnew : Dict.get (parse_bundle (issueBundle (lit "open"))) (lit "/etc/issue") = some (lit "open") := by
    with_unfolding_all decide
  refine ⟨lit "/etc/issue", ?_⟩
  rw [hold, hnew]
  exact ⟨by with_unfolding_all decide, .delete (lit "maintenance"), by with_unfolding_all decide,
    by with_unfolding_all decide⟩

end Changes
