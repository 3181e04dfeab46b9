import Ngcorion.Backup.ConfigTree
import Ngcorion.Dict
import Ngcorion.UnifiedDiff
import Mathlib.Data.List.Sort

/-!
# File bundles

A backup of a host whose configuration is a set of files is one text: a shell
loop prints every file between a BEGIN and an END line, and `parse_bundle`
splits the text into files again. A restore compares two bundles file by file.
-/
namespace FileBundle

open Text ConfigTree UnifiedDiff

inductive Family where
  | linux | apache | mongodb

def beginLine (path : Str) : Str := lit "##### BEGIN FILE: " ++ path ++ lit " #####"

def endLine (path : Str) : Str := lit "##### END FILE: " ++ path ++ lit " #####"

/-- What the loop body of `build_file_bundle_command` prints for one file. -/
def printFile (path content : Str) : Str :=
  beginLine path ++ '\n' :: (content ++ '\n' :: (endLine path ++ '\n' :: '\n' :: []))

/-- The output of `build_file_bundle_command` for the files that exist, in loop order. -/
def bundleOutput (files : List (Str × Str)) : Str := files.flatMap (fun f => printFile f.1 f.2)

/-- The values `bundle_header` writes into its lines: `device_type.upper()` of a
file-bundle family, the time of the backup and the address connected to. -/
structure Header where
  family : Family
  now : Str
  device_ip : Option Str
  now_line : '\n' ∉ now
  ip_line : ∀ ip, device_ip = some ip → '\n' ∉ ip

/-- A finite map from paths to contents as the loop meets it: every path names a
file, stands on one line, and is listed once; no content has a line that reads
like the END line of its own file. -/
structure FileSet where
  files : List (Str × Str)
  nodup : (Dict.keys files).Nodup
  path : ∀ f ∈ files, f.1 ≠ [] ∧ '\n' ∉ f.1
  no_end : ∀ f ∈ files, endLine f.1 ∉ lines f.2

def upperFamily : Family → Str
  | .linux => lit "LINUX"
  | .apache => lit "APACHE"
  | .mongodb => lit "MONGODB"

def headerLines (h : Header) : List Str :=
  [lit "##### " ++ upperFamily h.family ++ lit " Configuration Backup #####",
   lit "# Backup taken at: " ++ h.now ++ lit "Z",
   lit "# Device: " ++ h.device_ip.getD (lit "unknown"),
   lit "# By: Hardening Module",
   lit "#"]

def bundle_header (h : Header) : Str := (headerLines h).flatMap (fun l => l ++ ['\n'])

/-- A bundle as it is stored: read live it has no header, as a backup it has one. -/
def bundleText (header : Option Header) (files : List (Str × Str)) : Str :=
  (header.map bundle_header).getD [] ++ bundleOutput files

/-- `_BEGIN.match(line)`: group 1 is everything between the two fixed parts. -/
def beginPath (line : Str) : Option Str :=
  let middle := (line.drop (lit "##### BEGIN FILE: ").length).take (line.length - (beginLine []).length)
  if middle ≠ [] ∧ line = beginLine middle then some middle else none

/-- The newline that `echo ""` printed is taken off the joined body. -/
def stripEcho (content : Str) : Str :=
  if endsWith ['\n'] content then content.dropLast else content

/-- The two loops of `parse_bundle`: outside a file, and inside one with its
path and the body collected so far. -/
def parseLines : Option (Str × List Str) → List (Str × Str) → List Str → List (Str × Str)
  | none, files, [] => files
  | none, files, l :: ls =>
    match beginPath l with
    | none => parseLines none files ls
    | some path => parseLines (some (path, [])) files ls
  | some (path, body), files, [] => Dict.set files path (stripEcho (unlines body))
  | some (path, body), files, l :: ls =>
    if l = endLine path then parseLines none (Dict.set files path (stripEcho (unlines body))) ls
    else parseLines (some (path, body ++ [l])) files ls

theorem parseLines_nil (files : List (Str × Str)) : parseLines none files [] = files := rfl

theorem parseLines_outside (files : List (Str × Str)) (l : Str) (ls : List Str) :
    parseLines none files (l :: ls) = match beginPath l with
      | none => parseLines none files ls
      | some path => parseLines (some (path, [])) files ls := rfl

theorem parseLines_inside (path l : Str) (files : List (Str × Str)) (body ls : List Str) :
    parseLines (some (path, body)) files (l :: ls) =
      if l = endLine path then parseLines none (Dict.set files path (stripEcho (unlines body))) ls
      else parseLines (some (path, body ++ [l])) files ls := rfl

/-- Split a file-bundle backup into its files. -/
def parse_bundle (text : Str) : List (Str × Str) := parseLines none [] (lines text)

theorem beginPath_beginLine (path : Str) (h : path ≠ []) : beginPath (beginLine path) = some path := by
  have hm : ((beginLine path).drop (lit "##### BEGIN FILE: ").length).take
      ((beginLine path).length - (beginLine []).length) = path := by
    have hl : (beginLine path).length - (beginLine []).length = path.length := by
      simp only [beginLine, List.length_append, List.length_nil]
      omega
    rw [hl, beginLine, List.append_assoc, List.drop_left, List.take_left]
  simp only [beginPath, hm]
  simp [h]

/-- Only a line with the BEGIN text in front opens a file. -/
theorem beginPath_eq_none (line : Str) (h : startsWith (lit "##### BEGIN FILE: ") line = false) :
    beginPath line = none := by
  unfold beginPath
  refine if_neg (fun hc => ?_)
  have hs : startsWith (lit "##### BEGIN FILE: ") line = true := by
    rw [hc.2, beginLine, List.append_assoc]; exact startsWith_append _ _
  exact absurd hs (by simp [h])

/-- Inside a file every line but the END line belongs to the body. -/
theorem parseLines_body (path : Str) (files : List (Str × Str)) (body rest : List Str)
    (h : endLine path ∉ body) (before : List Str) :
    parseLines (some (path, before)) files (body ++ endLine path :: rest) =
      parseLines none (Dict.set files path (stripEcho (unlines (before ++ body)))) rest := by
  induction body generalizing before with
  | nil => simp [parseLines_inside]
  | cons l body ih =>
    simp only [List.mem_cons, not_or] at h
    simpa [parseLines_inside, Ne.symm h.1] using ih h.2 (before ++ [l])

theorem not_mem_beginLine (path : Str) (h : '\n' ∉ path) : '\n' ∉ beginLine path := by
  simp only [beginLine, List.mem_append, not_or]
  exact ⟨⟨by with_unfolding_all decide, h⟩, by with_unfolding_all decide⟩

theorem not_mem_endLine (path : Str) (h : '\n' ∉ path) : '\n' ∉ endLine path := by
  simp only [endLine, List.mem_append, not_or]
  exact ⟨⟨by with_unfolding_all decide, h⟩, by with_unfolding_all decide⟩

theorem lines_printFile (path content rest : Str) (h : '\n' ∉ path) :
    lines (printFile path content ++ rest) =
      beginLine path :: (lines content ++ endLine path :: [] :: lines rest) := by
  have hempty : lines ('\n' :: rest) = [] :: lines rest := lines_append_newline [] rest
  simp only [printFile, List.append_assoc, List.cons_append, List.nil_append, lines_append_newline, hempty,
    lines_of_no_newline _ (not_mem_beginLine path h), lines_of_no_newline _ (not_mem_endLine path h)]

/-- One printed file is read back without its last newline, if it has one. -/
theorem parseLines_printFile (path content rest : Str) (files : List (Str × Str)) (hne : path ≠ [])
    (hnl : '\n' ∉ path) (hend : endLine path ∉ lines content) :
    parseLines none files (lines (printFile path content ++ rest)) =
      parseLines none (Dict.set files path (stripEcho content)) (lines rest) := by
  rw [lines_printFile path content rest hnl]
  have hempty : beginPath [] = none := by with_unfolding_all decide
  simp only [parseLines_outside, beginPath_beginLine path hne, parseLines_body path files _ _ hend,
    List.nil_append, unlines_lines, hempty]

theorem parseLines_bundleOutput (files done : List (Str × Str)) (hkeys : (Dict.keys (done ++ files)).Nodup)
    (hpath : ∀ f ∈ files, f.1 ≠ [] ∧ '\n' ∉ f.1) (hend : ∀ f ∈ files, endLine f.1 ∉ lines f.2) :
    parseLines none done (lines (bundleOutput files)) = done ++ files.map (fun f => (f.1, stripEcho f.2)) := by
  induction files generalizing done with
  | nil => simp [bundleOutput, parseLines_outside, parseLines_nil, show beginPath [] = none by with_unfolding_all decide]
  | cons f files ih =>
    obtain ⟨path, content⟩ := f
    have hp := hpath (path, content) (by simp)
    have hnew : path ∉ Dict.keys done := by
      simp only [Dict.keys_append, Dict.keys_cons, List.nodup_append] at hkeys
      intro hm
      exact hkeys.2.2 path hm path (by simp) rfl
    have hout : bundleOutput ((path, content) :: files) = printFile path content ++ bundleOutput files := rfl
    rw [hout, parseLines_printFile path content _ done hp.1 hp.2 (hend (path, content) (by simp)),
      Dict.set_of_not_mem done path _ hnew, ih]
    · simp
    · simpa [Dict.keys_append] using hkeys
    · exact fun g hg => hpath g (by simp [hg])
    · exact fun g hg => hend g (by simp [hg])

theorem header_line (h : Header) : ∀ l ∈ headerLines h, '\n' ∉ l ∧ beginPath l = none := by
  have hnow := h.now_line
  intro l hl
  simp only [headerLines, List.mem_cons, List.not_mem_nil, or_false] at hl
  rcases hl with rfl | rfl | rfl | rfl | rfl
  · cases h.family <;> exact ⟨by with_unfolding_all decide, by with_unfolding_all decide⟩
  · exact ⟨by simp [hnow, lit], beginPath_eq_none _ (by simp [startsWith, lit, List.isPrefixOf])⟩
  · refine ⟨?_, beginPath_eq_none _ (by simp [startsWith, lit, List.isPrefixOf])⟩
    cases hip : h.device_ip with
    | none => with_unfolding_all decide
    | some ip => simp [h.ip_line ip hip, lit]
  · exact ⟨by with_unfolding_all decide, by with_unfolding_all decide⟩
  · exact ⟨by with_unfolding_all decide, by with_unfolding_all decide⟩

/-- Lines before the first BEGIN line leave no trace. -/
theorem parseLines_skip (skipped : List Str) (h : ∀ l ∈ skipped, '\n' ∉ l ∧ beginPath l = none)
    (files : List (Str × Str)) (rest : Str) :
    parseLines none files (lines (skipped.flatMap (fun l => l ++ ['\n']) ++ rest)) =
      parseLines none files (lines rest) := by
  induction skipped with
  | nil => rfl
  | cons l skipped ih =>
    have hl := h l (by simp)
    simp only [List.flatMap_cons, List.append_assoc, List.cons_append, List.nil_append,
      lines_append_newline, lines_of_no_newline l hl.1, parseLines_outside, hl.2]
    exact ih (fun m hm => h m (by simp [hm]))

/-- What comes back from every bundle: each file less one final newline. -/
theorem parse_bundle_bundleText (header : Option Header) (s : FileSet) :
    parse_bundle (bundleText header s.files) = s.files.map (fun f => (f.1, stripEcho f.2)) := by
  have hout := parseLines_bundleOutput s.files [] (by simpa using s.nodup) s.path s.no_end
  cases header with
  | none => simpa [parse_bundle, bundleText] using hout
  | some h =>
    simp only [parse_bundle, bundleText, Option.map_some, Option.getD_some, bundle_header]
    rw [parseLines_skip (headerLines h) (header_line h)]
    simpa using hout

theorem stripEcho_eq_self (content : Str) : stripEcho content = content ↔ endsWith ['\n'] content = false := by
  constructor
  · intro h
    by_contra hc
    rw [Bool.not_eq_false] at hc
    have hne : content ≠ [] := by rintro rfl; simp [endsWith] at hc
    have hlen := congrArg List.length h
    have := List.length_pos_of_ne_nil hne
    simp only [stripEcho, hc, if_true, List.length_dropLast] at hlen
    omega
  · intro h
    simp [stripEcho, h]

/-! ## The restore plan -/

/-- Keep the signed and context lines of a unified diff, without its headers. -/
def unifiedLine (line : Str) : Option DiffLine :=
  if startsWith (lit "---") line || startsWith (lit "+++") line then none
  else if startsWith (lit "@@") line then some ⟨.context, line⟩
  else match line with
    | '+' :: text => some ⟨.added, text⟩
    | '-' :: text => some ⟨.removed, text⟩
    | text => some ⟨.context, text.drop 1⟩

def _unified (difflib : Difflib) (a b : List Str) : List DiffLine :=
  (difflib.unified_diff a b).filterMap unifiedLine

structure BundlePlan where
  write : List (Str × Str)
  remove : List Str
  rejected : List Str
  diff : ConfigDiff

def familyName : Family → Str
  | .linux => lit "linux"
  | .apache => lit "apache"
  | .mongodb => lit "mongodb"

def rejectedText (family : Family) (path : Str) : Str :=
  path ++ lit " (outside the restorable paths for " ++ familyName family ++ lit ")"

/-- `sorted(set(backup) | set(live))` -/
def allPaths (backup live : List (Str × Str)) : List Str :=
  (Dict.keys backup ++ Dict.keys live).dedup.insertionSort (· ≤ ·)

section
variable (difflib : Difflib) (path_allowed : Str → Family → Bool) (family : Family)

/-- The section and the effect on the plan of one path that differs. -/
def planPath (plan : BundlePlan) (path : Str) : Option Str → Option Str → BundlePlan
  | none, none => plan
  | none, some l => { plan with
      remove := plan.remove ++ [path]
      diff := { plan.diff with sections := plan.diff.sections ++
        [⟨path ++ lit " — added after the backup, will be removed", (lines l).map (DiffLine.mk .removed)⟩] } }
  | some b, none => { plan with
      write := Dict.set plan.write path b
      diff := { plan.diff with sections := plan.diff.sections ++
        [⟨path ++ lit " — missing now, will be recreated", (lines b).map (DiffLine.mk .added)⟩] } }
  | some b, some l => { plan with
      write := Dict.set plan.write path b
      diff := { plan.diff with sections := plan.diff.sections ++
        [⟨path, _unified difflib (lines l) (lines b)⟩] } }

def planStep (backup live : List (Str × Str)) (plan : BundlePlan) (path : Str) : BundlePlan :=
  if path_allowed path family = false then { plan with rejected := plan.rejected ++ [path] }
  else if Dict.get backup path = Dict.get live path then plan
  else planPath difflib plan path (Dict.get backup path) (Dict.get live path)

def plan_bundle (backup_text live_text : Str) : BundlePlan :=
  let backup := parse_bundle backup_text
  let live := parse_bundle live_text
  let plan := (allPaths backup live).foldl (planStep difflib path_allowed family backup live) ⟨[], [], [], .empty⟩
  { plan with diff := { plan.diff with skipped := plan.diff.skipped ++ plan.rejected.map (rejectedText family) } }

/-- Only the backup's own contents are ever planned to be written. -/
theorem planStep_write (backup live : List (Str × Str)) (plan : BundlePlan) (path : Str)
    (h : ∀ f ∈ plan.write, Dict.get backup f.1 = some f.2) :
    ∀ f ∈ (planStep difflib path_allowed family backup live plan path).write,
      Dict.get backup f.1 = some f.2 := by
  have hset : ∀ b, Dict.get backup path = some b → ∀ f ∈ Dict.set plan.write path b,
      Dict.get backup f.1 = some f.2 := by
    intro b hb f hf
    obtain ⟨k, v⟩ := f
    rcases Dict.mem_set plan.write path b (k, v) hf with he | hm
    · cases he
      exact hb
    · exact h _ hm
  unfold planStep
  split
  · exact h
  · split
    · exact h
    · cases hb : Dict.get backup path with
      | none => cases hl : Dict.get live path <;> exact h
      | some b => cases hl : Dict.get live path <;> exact hset b hb

theorem plan_bundle_write (backup_text live_text : Str) :
    ∀ f ∈ (plan_bundle difflib path_allowed family backup_text live_text).write,
      Dict.get (parse_bundle backup_text) f.1 = some f.2 := by
  have hfold : ∀ (paths : List Str) (plan : BundlePlan),
      (∀ f ∈ plan.write, Dict.get (parse_bundle backup_text) f.1 = some f.2) →
      ∀ f ∈ (paths.foldl (planStep difflib path_allowed family (parse_bundle backup_text)
        (parse_bundle live_text)) plan).write, Dict.get (parse_bundle backup_text) f.1 = some f.2 := by
    intro paths
    induction paths with
    | nil => exact fun plan h => h
    | cons path paths ih => exact fun plan h => ih _ (planStep_write difflib path_allowed family _ _ plan path h)
  exact hfold _ _ (by simp)

end

/-- The bundle of a set of files gives the files back, and whatever a restore of
it writes is a file's own content. -/
def ByteExact (header : Option Header) (s : FileSet) : Prop :=
  parse_bundle (bundleText header s.files) = s.files ∧
  ∀ difflib path_allowed family live_text,
    ∀ f ∈ (plan_bundle difflib path_allowed family (bundleText header s.files) live_text).write, f ∈ s.files

/-- Reading a bundle back is byte exact for exactly the files that do not end
with a newline: the newline taken off is the file's own whenever it has one. -/
theorem byteExact_iff (header : Option Header) (s : FileSet) :
    ByteExact header s ↔ ∀ f ∈ s.files, endsWith ['\n'] f.2 = false := by
  have hparse := parse_bundle_bundleText header s
  constructor
  · rintro ⟨h, -⟩ f hf
    rw [hparse] at h
    have hmap : s.files.map (fun f => (f.1, stripEcho f.2)) = s.files.map id := by simpa using h
    have hf2 := congrArg Prod.snd (List.map_inj_left.mp hmap f hf)
    exact (stripEcho_eq_self f.2).mp hf2
  · intro h
    have hexact : parse_bundle (bundleText header s.files) = s.files := by
      rw [hparse]
      conv_rhs => rw [← List.map_id s.files]
      exact List.map_inj_left.mpr (fun f hf => by simp [(stripEcho_eq_self f.2).mpr (h f hf)])
    refine ⟨hexact, ?_⟩
    intro difflib path_allowed family live_text f hf
    have hget := plan_bundle_write difflib path_allowed family _ live_text f hf
    rw [hexact] at hget
    exact Dict.mem_of_get s.files f.1 f.2 hget

/-- The login banner of a host, with the final newline every such file has. -/
def issueFile : FileSet where
  files := [(lit "/etc/issue", lit "Authorized use only\n")]
  nodup := by simp
  path := by with_unfolding_all decide
  no_end := by with_unfolding_all decide

theorem issueFile_not_byteExact : ¬ ByteExact none issueFile := by
  rintro ⟨h, -⟩
  have hlost : parse_bundle (bundleText none issueFile.files) =
      [(lit "/etc/issue", lit "Authorized use only")] := by with_unfolding_all decide
  rw [hlost] at h
  exact absurd h (by with_unfolding_all decide)

end FileBundle
