import Ngcorion.Backup.FortiRestore
import Ngcorion.Backup.CiscoCompare

/-!
# Comparing printed FortiOS configurations

A configuration is a well-formed tree; its values may contain anything, line
ends too. `text` prints it the way `show full-configuration` does. The parser
works line by line, so a value that is printed over several lines is cut, and
what stands on its inner lines is dropped or taken for commands. When every
line is printed on one line, an empty comparison misses no setting.
-/
namespace FortiPrint

open Text ConfigTree FortiOS FortiDevice FortiScope FortiClear FortiParse FortiRestore CiscoCompare

def indent (depth : Nat) (line : Str) : Str := List.replicate (4 * depth) ' ' ++ line

def printed (depth : Nat) : Forest → List Str
  | .nil => []
  | .cons _ line children rest =>
    (if verb line = lit "set" then [indent depth line]
     else indent depth line :: (printed (depth + 1) children ++ [indent depth (closer line)])) ++ printed depth rest

/-- The output of `show full-configuration`. -/
def text (c : Forest) : Str := (printed 0 c).flatMap (fun line => line ++ ['\n'])

/-- Printed on one line, and taken for a line of the configuration. -/
def oneLine (line : Str) : Bool := line.all (fun c => !isLineBreak c) && keepLine line = some line

def eachOneLine : Forest → Bool
  | .nil => true
  | .cons _ line children rest => oneLine line && eachOneLine children && eachOneLine rest

/-! ## Reading the printed lines -/

theorem splitlines_flatMap (ls : List Str) (h : ∀ l ∈ ls, ∀ c ∈ l, isLineBreak c = false) :
    splitlines (ls.flatMap (fun line => line ++ ['\n'])) = ls := by
  induction ls with
  | nil => rfl
  | cons l ls ih =>
    have hi := ih (fun k hk => h k (by simp [hk]))
    rw [List.flatMap_cons, List.append_assoc, List.singleton_append, splitlines_line (h l (by simp)), hi]

theorem lstrip_indent (depth : Nat) (line : Str) : lstrip (indent depth line) = lstrip line := by
  have hb : isSpace ' ' = true := by decide
  unfold indent lstrip
  rw [List.dropWhile_append_of_pos]
  intro c hc
  rw [List.eq_of_mem_replicate hc]
  exact hb

theorem keepLine_indent (depth : Nat) (line : Str) : keepLine (indent depth line) = keepLine line := by
  have hs : strip (indent depth line) = strip line := by rw [strip, strip, lstrip_indent]
  rw [keepLine, keepLine, hs]

theorem oneLine_closer (line : Str) : oneLine (closer line) = true := by
  unfold closer
  split <;> with_unfolding_all decide

theorem oneLine_indent (depth : Nat) {line : Str} (h : oneLine line = true) :
    (∀ c ∈ indent depth line, isLineBreak c = false) ∧ keepLine (indent depth line) = some line := by
  simp only [oneLine, Bool.and_eq_true, List.all_eq_true, Bool.not_eq_true', decide_eq_true_eq] at h
  refine ⟨?_, (keepLine_indent depth line).trans h.2⟩
  intro c hc
  rcases List.mem_append.mp hc with hc | hc
  · rw [List.eq_of_mem_replicate hc]
    decide
  · exact h.1 c hc

/-- The printed lines are read back as the lines of the configuration. -/
theorem printed_lines (c : Forest) (hc : eachOneLine c = true) (depth : Nat) :
    (∀ l ∈ printed depth c, ∀ ch ∈ l, isLineBreak ch = false) ∧
      (printed depth c).filterMap keepLine = _forti_body c := by
  induction c generalizing depth with
  | nil => simp [printed, _forti_body]
  | cons key line children rest ihc ihr =>
    simp only [eachOneLine, Bool.and_eq_true] at hc
    obtain ⟨hbreakc, hlinesc⟩ := ihc hc.1.2 (depth + 1)
    obtain ⟨hbreakr, hlinesr⟩ := ihr hc.2 depth
    have hline := oneLine_indent depth hc.1.1
    have hclose := oneLine_indent depth (oneLine_closer line)
    by_cases hv : verb line = lit "set"
    · simp only [printed, _forti_body, hv, if_true, List.filterMap_append, hlinesr]
      refine ⟨?_, by simp [hline.2]⟩
      intro l hl
      rcases List.mem_append.mp hl with hl | hl
      · rw [List.mem_singleton.mp hl]
        exact hline.1
      · exact hbreakr l hl
    · simp only [printed, _forti_body, hv, if_false, List.filterMap_append, hlinesr, List.filterMap_cons, hline.2,
        hlinesc, hclose.2, List.filterMap_nil, and_true]
      intro l hl
      rcases List.mem_append.mp hl with hl | hl
      · rcases List.mem_cons.mp hl with hl | hl
        · rw [hl]
          exact hline.1
        · rcases List.mem_append.mp hl with hl | hl
          · exact hbreakc l hl
          · rw [List.mem_singleton.mp hl]
            exact hclose.1
      · exact hbreakr l hl

theorem forti_lines_text (c : Forest) (hc : eachOneLine c = true) : _forti_lines (text c) = _forti_body c := by
  obtain ⟨hbreak, hlines⟩ := printed_lines c hc 0
  rw [_forti_lines, text, splitlines_flatMap _ hbreak, hlines]

/-! ## Parsing them -/

def isVolatile (key : Str) : Bool := key ∈ volatileSetKeys.map (lit "set " ++ ·)

/-- The tree without the settings that a restore itself toggles. -/
def dropVolatile : Forest → Forest
  | .nil => .nil
  | .cons key line children rest =>
    if isVolatile key then dropVolatile rest else .cons key line (dropVolatile children) (dropVolatile rest)

theorem keys_dropVolatile (c : Forest) : (dropVolatile c).keys = c.keys.filter (fun k => !isVolatile k) := by
  induction c with
  | nil => rfl
  | cons key line children rest _ ihr =>
    cases hv : isVolatile key <;> simp [dropVolatile, hv, ihr]

theorem form_dropVolatile {key line : Str} {c : Forest} (h : Form key line c) : Form key line (dropVolatile c) := by
  cases h with
  | set k v hk hv => exact .set k v hk hv
  | edit n hn => exact .edit n hn _
  | config w hw => exact .config w hw _

theorem good_dropVolatile {c : Forest} (hc : Good c) : Good (dropVolatile c) := by
  induction c with
  | nil => trivial
  | cons key line children rest ihc ihr =>
    obtain ⟨hr, hform, hgc, hgr⟩ := hc
    unfold dropVolatile
    split
    · exact ihr hgr
    · refine ⟨?_, form_dropVolatile hform, ihc hgc, ihr hgr⟩
      rw [keys_dropVolatile]
      exact fun hk => hr (List.mem_of_mem_filter hk)

/-- Lines that turn the open scope from `f` into `g` and leave it open. -/
def Parses (ls : List Str) (f g : Forest) : Prop :=
  ∀ (root : Forest) (path : List Str) (h : Forest), root.atPath path = some h →
    parseFrom (root.changeAt (fun _ => f) path, path) ls = some (root.changeAt (fun _ => g) path, path)

theorem parseFrom_append (a b : List Str) (s : Forest × List Str) :
    parseFrom s (a ++ b) = (parseFrom s a).bind (fun s' => parseFrom s' b) := by
  induction a generalizing s with
  | nil => rfl
  | cons line a ih =>
    simp only [List.cons_append, parseFrom]
    cases parseStep s line with
    | none => rfl
    | some s' => simpa using ih s'

theorem Parses.append {a b : List Str} {f g h : Forest} (hfg : Parses a f g) (hgh : Parses b g h) :
    Parses (a ++ b) f h := by
  intro root path old hold
  rw [parseFrom_append, hfg root path old hold]
  exact hgh root path old hold

theorem verb_closer (line : Str) : verb (closer line) = lit "end" ∨ verb (closer line) = lit "next" := by
  unfold closer
  split
  · exact Or.inr (by with_unfolding_all decide)
  · exact Or.inl (by with_unfolding_all decide)

theorem closers_ne : (lit "end" ≠ lit "config" ∧ lit "end" ≠ lit "edit") ∧
    (lit "next" ≠ lit "config" ∧ lit "next" ≠ lit "edit") ∧ (lit "set" ≠ lit "end" ∧ lit "set" ≠ lit "next") := by
  with_unfolding_all decide

theorem parseStep_closer (root : Forest) (path : List Str) (line : Str) :
    parseStep (root, path) (closer line) = some (root, path.dropLast) := by
  have hv := verb_closer line
  have hn : ¬ (verb (closer line) = lit "config" ∨ verb (closer line) = lit "edit") := by
    rcases hv with hv | hv
    · simp [hv, closers_ne]
    · simp [hv, closers_ne]
  simp only [parseStep, hn, hv, if_true, if_false]

theorem parseStep_scope {key line : Str} {c : Forest} (hf : Form key line c) (hv : verb line ≠ lit "set")
    (root : Forest) (path : List Str) :
    parseStep (root, path) line = some (root.changeAt (fun f => f.child line line) path, path ++ [line]) := by
  have hs : verb line = lit "config" ∨ verb line = lit "edit" := by
    cases hf with
    | set k v => simp at hv
    | edit n => simp
    | config w => simp
  simp only [parseStep, hs, if_true]

/-- A scope that is opened, filled and closed is filed under its line. -/
theorem parses_scope {key line : Str} {c f g : Forest} (hf : Form key line c) (hv : verb line ≠ lit "set")
    (hkey : key ∉ f.keys) {inner : List Str} (hi : Parses inner .nil g) :
    Parses (line :: (inner ++ [closer line])) f (f.set key line g) := by
  intro root path old hold
  have hline := form_scope hf hv
  subst hline
  have hopen : (root.changeAt (fun _ => f) path).changeAt (fun x => x.child line line) path =
      root.changeAt (fun _ => f.child line line) path := Forest.changeAt_changeAt _ _ _ _
  have hchild : f.child line line = f.set line line .nil := by simp [Forest.child, hkey]
  have hat : (root.changeAt (fun _ => f.child line line) path).atPath (path ++ [line]) = some .nil := by
    rw [Forest.atPath_append, Forest.atPath_changeAt _ path root old hold, hchild]
    simp [Forest.atPath, Forest.get_set]
  have hfill := hi _ (path ++ [line]) .nil hat
  rw [Forest.changeAt_self _ _ _ hat] at hfill
  have hset : (root.changeAt (fun _ => f.child line line) path).changeAt (fun _ => g) (path ++ [line]) =
      root.changeAt (fun _ => f.set line line g) path := by
    rw [Forest.changeAt_append, Forest.changeAt_changeAt, hchild]
    simp [Forest.changeAt, Forest.get_set, Forest.set_set]
  simp only [parseFrom, parseStep_scope hf hv, Option.bind_some, hopen, parseFrom_append, hfill, hset,
    parseStep_closer, List.dropLast_concat]

/-- A setting is filed under its key, unless the restore itself toggles it. -/
theorem parses_set (k v : Str) (hk : isKey k = true) (hv : startsWord v = true) (f : Forest) :
    Parses [lit "set " ++ (k ++ ' ' :: v)] f
      (if isVolatile (lit "set " ++ k) then f else f.set (lit "set " ++ k) (lit "set " ++ (k ++ ' ' :: v)) .nil) := by
  intro root path old _
  have hvol : isVolatile (lit "set " ++ k) = decide (k ∈ volatileSetKeys) := by
    rw [isVolatile, decide_eq_decide]
    exact List.mem_map_of_injective (fun _ _ h => List.append_cancel_left h)
  have hverb := verb_ne
  have hclose := closers_ne
  simp only [parseFrom, parseStep, verb_set, hverb.1.symm, hverb.2.1.symm, hclose.2.2, or_self, if_true, if_false,
    forti_key_set k v hk hv, argument_set k (startsWord_of_isKey k hk), hvol, decide_eq_true_eq]
  by_cases hm : k ∈ volatileSetKeys
  · simp [hm]
  · simp [hm, Forest.changeAt_changeAt]

theorem parses_body (c : Forest) (hc : Good c) (f : Forest) (hd : ∀ key ∈ c.keys, key ∉ f.keys) :
    Parses (_forti_body c) f (.ofEntries (f.entries ++ (dropVolatile c).entries)) := by
  induction c generalizing f with
  | nil =>
    intro root path old hold
    simp [_forti_body, parseFrom, dropVolatile]
  | cons key line children rest ihc ihr =>
    obtain ⟨hr, hform, hgc, hgr⟩ := hc
    have hkey : key ∉ f.keys := hd key (by simp)
    have hdf : ∀ k ∈ rest.keys, k ∉ f.keys := fun k hk => hd k (by simp [hk])
    have hafter : ∀ ls, ¬ isVolatile key = true → Parses ls f (f.set key line (dropVolatile children)) →
        Parses (ls ++ _forti_body rest) f
          (.ofEntries (f.entries ++ (dropVolatile (.cons key line children rest)).entries)) := by
      intro ls hvol hls
      have hdr : ∀ k ∈ rest.keys, k ∉ (f.set key line (dropVolatile children)).keys := by
        intro k hk
        have hne : k ≠ key := fun he => hr (he ▸ hk)
        simp [Forest.keys_set, hkey, hdf k hk, hne]
      have hrest := ihr hgr _ hdr
      rw [entries_set_of_not_mem f key line _ hkey, List.append_assoc] at hrest
      have hdrop : dropVolatile (.cons key line children rest) =
          .cons key line (dropVolatile children) (dropVolatile rest) := by simp [dropVolatile, hvol]
      rw [hdrop]
      exact hls.append hrest
    by_cases hv : verb line = lit "set"
    · have hbody : _forti_body (.cons key line children rest) = [line] ++ _forti_body rest := by
        simp [_forti_body, hv]
      rw [hbody]
      cases hform with
      | set k v hk hw =>
        have hset := parses_set k v hk hw f
        by_cases hvol : isVolatile (lit "set " ++ k) = true
        · rw [if_pos hvol] at hset
          simpa [dropVolatile, hvol] using hset.append (ihr hgr f hdf)
        · rw [if_neg hvol] at hset
          exact hafter _ hvol hset
      | edit n => exact absurd hv (by simp [verb_ne])
      | config w => exact absurd hv (by simp [verb_ne])
    · have hvol : ¬ isVolatile key = true := by
        intro hvol
        simp only [isVolatile, List.mem_map, decide_eq_true_eq] at hvol
        obtain ⟨k, -, rfl⟩ := hvol
        rw [form_scope hform hv] at hv
        exact hv (verb_set k)
      have hbody : _forti_body (.cons key line children rest) =
          (line :: (_forti_body children ++ [closer line])) ++ _forti_body rest := by simp [_forti_body, hv]
      have hinner := ihc hgc .nil (by simp)
      simp only [Forest.entries_nil, List.nil_append, Forest.ofEntries_entries] at hinner
      rw [hbody]
      exact hafter _ hvol (parses_scope hform hv hkey hinner)

/-- A printed configuration is read back, and every scope is closed at its end. -/
theorem parseFrom_text (c : Forest) (hc : Good c) (h : eachOneLine c = true) :
    parseFrom (.nil, []) (_forti_lines (text c)) = some (dropVolatile c, []) := by
  have hbody := parses_body c hc .nil (by simp) .nil [] .nil rfl
  simpa [forti_lines_text c h, Forest.changeAt] using hbody

/-! ## An empty comparison has no commands -/

/-- A part of the comparison that leaves no changed line has no command either. -/
structure Silent (m : Marks) (r : List Str × Marks) : Prop where
  grows : Grows m r.2
  clean : Clean r.2 → Clean m ∧ r.1 = []

theorem Silent.nothing {m : Marks} (h : Ok m) : Silent m ([], m) := ⟨Grows.refl h, fun hc => ⟨hc, rfl⟩⟩

theorem Silent.changed {m m' : Marks} {cmds : List Str} (hg : Grows m m') (hc : ¬ Clean m') : Silent m (cmds, m') :=
  ⟨hg, fun h => absurd h hc⟩

theorem Silent.append {m : Marks} {r r' : List Str × Marks} (h : Silent m r) (h' : Silent r.2 r') :
    Silent m (r.1 ++ r'.1, r'.2) := by
  refine ⟨h.grows.trans h'.grows, ?_⟩
  intro hc
  obtain ⟨hclean, hcmds'⟩ := h'.clean hc
  obtain ⟨hm, hcmds⟩ := h.clean hclean
  exact ⟨hm, by rw [hcmds, hcmds', List.append_nil]⟩

theorem not_clean_mark (title : Str) {op : Op} (hop : op ≠ .context) (text : Str) {m : Marks} (hm : Ok m) :
    ¬ Clean (mark title op text m) := fun h => hop ((clean_mark title op text m hm).mp h).1

theorem silent_mark (title : Str) {op : Op} (hop : op ≠ .context) (text : Str) (cmds : List Str) {m : Marks}
    (hm : Ok m) : Silent m (cmds, mark title op text m) :=
  .changed (grows_mark title op text m hm) (not_clean_mark title hop text hm)

theorem silent_marks (title : Str) {op : Op} (hop : op ≠ .context) (text : Str) (texts : List (Nat × Str))
    (cmds : List Str) {m : Marks} (hm : Ok m) : Silent m (cmds, markAll 4 title op texts (mark title op text m)) := by
  have hg := grows_mark title op text m hm
  refine .changed (hg.trans (grows_markAll 4 title op texts _ hg.ok)) ?_
  exact fun h => not_clean_mark title hop text hm (clean_of_markAll 4 title op texts _ hg.ok h)

theorem liveLoop_silent (l : Forest) (title : Str) (b : Forest) (m : Marks) (hm : Ok m) :
    Silent m (liveLoop title b l m) := by
  have hremoved : Op.removed ≠ .context := by decide
  induction l generalizing m with
  | nil => exact .nothing hm
  | cons key line children rest _ ihr =>
    have hlater : ∀ r : List Str × Marks, Silent m r →
        Silent m (r.1 ++ (liveLoop title b rest r.2).1, (liveLoop title b rest r.2).2) :=
      fun r h => h.append (ihr r.2 h.grows.ok)
    simp only [liveLoop]
    apply hlater
    split_ifs
    · exact .nothing hm
    · exact silent_mark title hremoved line _ hm
    · exact silent_marks title hremoved line _ _ hm
    · exact .nothing hm
    · exact silent_mark title hremoved line _ hm

theorem silent_foldl (title : Str) (cmds : List Str) (m : Marks) (hm : Ok m) :
    Silent m (cmds, cmds.foldl (fun m t => mark title .added t m) m) := by
  induction cmds generalizing m with
  | nil => exact .nothing hm
  | cons t cmds ih =>
    have hadded : Op.added ≠ .context := by decide
    have hlater := ih _ (grows_mark title .added t m hm).ok
    exact (silent_mark title hadded t [t] hm).append hlater

theorem orderStep_silent (path : List Str) (b l : Forest) (m : Marks) (hm : Ok m) :
    Silent m (orderStep path b l m) := by
  unfold orderStep
  split
  · exact silent_foldl _ _ m hm
  · exact .nothing hm

theorem ok_fresh (diff : ConfigDiff) : Ok ⟨diff, none⟩ := by
  intro i hi
  simp at hi

/-- One scope as a whole, given its first loop. -/
theorem diff_silent {b l : Forest} {path : List Str} {diff : ConfigDiff}
    (h : Silent ⟨diff, none⟩ (backupLoop path b l ⟨diff, none⟩)) (current : Option Nat) (hok : Ok ⟨diff, current⟩) :
    Silent ⟨diff, current⟩ ((_forti_diff b l path diff).1, ⟨(_forti_diff b l path diff).2, current⟩) := by
  have hlive := h.append (liveLoop_silent l (titleOf path) b _ h.grows.ok)
  have hall := hlive.append (orderStep_silent path b l _ hlive.grows.ok)
  exact ⟨⟨fun i hi => Nat.lt_of_lt_of_le (hok i hi) hall.grows.sections, hall.grows.sections⟩, hall.clean⟩

theorem backupLoop_silent (b : Forest) (path : List Str) (l : Forest) (m : Marks) (hm : Ok m) :
    Silent m (backupLoop path b l m) := by
  have hadded : Op.added ≠ .context := by decide
  induction b generalizing path l m with
  | nil => exact .nothing hm
  | cons key line children rest ihc ihr =>
    have hlater : ∀ r : List Str × Marks, Silent m r →
        Silent m (r.1 ++ (backupLoop path rest l r.2).1, (backupLoop path rest l r.2).2) :=
      fun r h => h.append (ihr path l r.2 h.grows.ok)
    by_cases hv : verb line = lit "set"
    · simp only [backupLoop, hv, if_true]
      apply hlater
      cases hg : l.get key with
      | none => exact silent_mark _ hadded line _ hm
      | some v =>
        obtain ⟨old, oldChildren⟩ := v
        dsimp only
        split_ifs
        · exact .nothing hm
        · exact ⟨⟨hm, Nat.le_refl _⟩, fun hc => ⟨hc, rfl⟩⟩
        · have hgrows := grows_mark (titleOf path) .removed old m hm
          exact .changed (hgrows.trans (grows_mark _ _ _ _ hgrows.ok)) (not_clean_mark _ hadded line hgrows.ok)
    · cases hg : l.get key with
      | none =>
        simp only [backupLoop, hv, hg, if_false]
        exact hlater (_, _) (silent_marks _ hadded line _ _ hm)
      | some v =>
        obtain ⟨old, liveChildren⟩ := v
        have hin := diff_silent (ihc (path ++ [line]) liveChildren ⟨m.diff, none⟩ (ok_fresh m.diff)) m.current hm
        rw [backupLoop_scope path m hv hg]
        apply hlater ((if (_forti_diff children liveChildren (path ++ [line]) m.diff).1 = [] then [] else
          line :: ((_forti_diff children liveChildren (path ++ [line]) m.diff).1 ++ [closer line])),
          ⟨(_forti_diff children liveChildren (path ++ [line]) m.diff).2, m.current⟩)
        refine ⟨hin.grows, ?_⟩
        intro hc
        obtain ⟨hclean, hnone⟩ := hin.clean hc
        exact ⟨hclean, if_pos hnone⟩

theorem commands_of_is_empty (b l : Forest) (h : (_forti_diff b l [] .empty).2.is_empty = true) :
    (_forti_diff b l [] .empty).1 = [] := by
  have hloop := backupLoop_silent b [] l ⟨.empty, none⟩ (ok_fresh .empty)
  have hdiff := diff_silent hloop none (ok_fresh .empty)
  exact (hdiff.clean ((is_empty_iff_clean _).mp h)).2

/-- Two well-formed trees with an empty comparison agree. -/
theorem restored_of_is_empty {b l : Forest} (hb : Good b) (hl : Good l)
    (h : (_forti_diff b l [] .empty).2.is_empty = true) : Restored false b l := by
  obtain ⟨g, hrun, -, hres⟩ := runs_forti_diff hb hl [] .empty
  rw [commands_of_is_empty b l h] at hrun
  rw [runs_nil_eq hrun]
  exact hres

/-! ## What an empty comparison says -/

/-- The line filed under a key in the scope at a path: a setting with its value, or an entry. -/
def lineAt (f : Forest) (path : List Str) (key : Str) : Option Str :=
  (f.atPath path).bind (fun g => (g.get key).map Prod.fst)

/-- The same value, or an encrypted one on both sides. -/
def SameValue (a b : Option Str) : Prop :=
  a = b ∨ ∃ x y, a = some x ∧ b = some y ∧ _is_enc x = true ∧ _is_enc y = true

def isConfig (key : Str) : Bool := startsWith (lit "config ") key

/-- The same settings and entries in every scope, and the same order in the ordered tables. -/
structure SameSettings (b l : Forest) : Prop where
  values : ∀ path key, isConfig key = false → isVolatile key = false →
    SameValue (lineAt b path key) (lineAt l path key)
  order : ∀ path f g, isOrdered path = true → b.atPath path = some f → l.atPath path = some g →
    editNames f = editNames g

theorem lineAt_cons (f : Forest) (k : Str) (path : List Str) (key : Str) :
    lineAt f (k :: path) key = (f.get k).bind (fun n => lineAt n.2 path key) := by
  cases h : f.get k <;> simp [lineAt, Forest.atPath, h]

theorem lineAt_nil (path : List Str) (key : Str) : lineAt .nil path key = none := by
  cases path <;> simp [lineAt, Forest.atPath]

theorem isConfig_of_form {key line : Str} {c : Forest} (h : Form key line c) (hv : verb line = lit "config") :
    isConfig key = true := by
  cases h with
  | set k v => simp [verb_ne.2.1.symm] at hv
  | edit n => simp [verb_ne.2.2.symm] at hv
  | config w => exact startsWith_append _ _

/-- A blank scope has neither settings nor entries. -/
theorem lineAt_blank {f : Forest} (hf : Good f) (hblank : Blank f) (path : List Str) (key : Str)
    (hkey : isConfig key = false) : lineAt f path key = none := by
  induction path generalizing f with
  | nil =>
    cases hg : f.get key with
    | none => simp [lineAt, Forest.atPath, hg]
    | some n =>
      have hm := Dict.mem_of_get f.entries key n hg
      have hconfig := isConfig_of_form (hf.get hg).1 ((blank_iff f).mp hblank _ hm).1
      simp [hkey] at hconfig
  | cons k path ih =>
    rw [lineAt_cons]
    cases hg : f.get k with
    | none => rfl
    | some n =>
      have hm := Dict.mem_of_get f.entries k n hg
      exact ih (hf.get hg).2 ((blank_iff f).mp hblank _ hm).2

theorem agrees_get {b g : Forest} (h : Agrees b g) {key line : Str} {children : Forest}
    (hb : b.get key = some (line, children)) :
    ∃ line' children', g.get key = some (line', children') ∧ SameLine line line' ∧
      (verb line ≠ lit "set" → Restored (isOrdered [line]) children children') := by
  induction b with
  | nil => simp at hb
  | cons k l c rest _ ih =>
    obtain ⟨⟨line', children', hg, hsame, hscope⟩, hr⟩ := h
    rw [Forest.get_cons] at hb
    split at hb
    · rename_i heq
      cases hb
      refine ⟨line', children', heq ▸ hg, hsame, ?_⟩
      intro hv
      obtain ⟨ha, he, ho⟩ := hscope hv
      exact ⟨ha, he, ho⟩
    · exact ih hr hb

theorem children_of_set {key line : Str} {c : Forest} (h : Form key line c) (hv : verb line = lit "set") :
    c = .nil := (runs_set_form h hv .nil).1

theorem lineAt_restored {ordered : Bool} {b g : Forest} (hb : Good b) (hg : Good g) (h : Restored ordered b g)
    (path : List Str) (key : Str) (hkey : isConfig key = false) :
    SameValue (lineAt b path key) (lineAt g path key) := by
  induction path generalizing b g ordered with
  | nil =>
    have hat : ∀ f : Forest, lineAt f [] key = (f.get key).map Prod.fst := fun f => by simp [lineAt, Forest.atPath]
    rw [hat, hat]
    cases hbk : b.get key with
    | none =>
      cases hgk : g.get key with
      | none => exact Or.inl rfl
      | some n =>
        have hremains := h.extra key ((Forest.get_eq_none b key).mp hbk) n.1 n.2 hgk
        have hconfig := isConfig_of_form (hg.get hgk).1 hremains.1
        simp [hkey] at hconfig
    | some n =>
      obtain ⟨line', children', hgk, hsame, -⟩ := agrees_get h.agrees hbk
      rw [hgk]
      rcases hsame with hsame | ⟨-, henc, henc'⟩
      · exact Or.inl (by simp [hsame])
      · exact Or.inr ⟨n.1, line', rfl, rfl, henc, henc'⟩
  | cons k path ih =>
    rw [lineAt_cons, lineAt_cons]
    cases hbk : b.get k with
    | none =>
      cases hgk : g.get k with
      | none => exact Or.inl rfl
      | some n =>
        have hremains := h.extra k ((Forest.get_eq_none b k).mp hbk) n.1 n.2 hgk
        exact Or.inl (lineAt_blank (hg.get hgk).2 hremains.2 path key hkey).symm
    | some n =>
      obtain ⟨line, children⟩ := n
      obtain ⟨hform, hgood⟩ := hb.get hbk
      obtain ⟨line', children', hgk, -, hscope⟩ := agrees_get h.agrees hbk
      obtain ⟨hform', hgood'⟩ := hg.get hgk
      rw [hgk]
      by_cases hv : verb line = lit "set"
      · have hnil := children_of_set hform hv
        have hnil' := children_of_set hform' ((form_same_kind hform hform').mp hv)
        exact Or.inl (by simp [hnil, hnil'])
      · exact ih hgood hgood' (hscope hv)

theorem order_restored {ordered : Bool} {b g : Forest} (hb : Good b) (hg : Good g) (h : Restored ordered b g)
    {path : List Str} (hp : isOrdered path = true) {f f' : Forest} (hf : b.atPath path = some f)
    (hf' : g.atPath path = some f') : editNames f = editNames f' := by
  induction path generalizing b g ordered with
  | nil => simp [isOrdered] at hp
  | cons k path ih =>
    simp only [Forest.atPath, Option.bind_eq_some_iff] at hf hf'
    obtain ⟨⟨line, children⟩, hbk, hf⟩ := hf
    obtain ⟨⟨line'', children''⟩, hgk'', hf'⟩ := hf'
    obtain ⟨hform, hgood⟩ := hb.get hbk
    obtain ⟨line', children', hgk, -, hscope⟩ := agrees_get h.agrees hbk
    rw [hgk, Option.some.injEq, Prod.mk.injEq] at hgk''
    obtain ⟨-, rfl⟩ := hgk''
    obtain ⟨hform', hgood'⟩ := hg.get hgk
    have hv : verb line ≠ lit "set" := by
      intro hv
      cases path with
      | nil =>
        cases hform with
        | set w v =>
          simp [isOrdered, startsWith, lit, List.isPrefixOf] at hp
        | edit n => simp [verb_ne] at hv
        | config w => simp [verb_ne] at hv
      | cons k' path =>
        rw [children_of_set hform hv] at hf
        simp [Forest.atPath] at hf
    cases path with
    | nil =>
      simp only [Forest.atPath, Option.some.injEq] at hf hf'
      have hline := form_scope hform hv
      have horder := (hscope hv).order (hline ▸ hp)
      rw [← hf, ← hf']
      exact congrArg (List.map _) horder.symm
    | cons k' path =>
      have hp' : isOrdered (k' :: path) = true := by
        simpa [isOrdered, List.getLast?_cons_cons] using hp
      exact ih hgood hgood' (hscope hv) hp' hf hf'

/-! ## The settings that a restore toggles -/

theorem get_dropVolatile (c : Forest) (key : Str) (h : isVolatile key = false) :
    (dropVolatile c).get key = (c.get key).map (fun n => (n.1, dropVolatile n.2)) := by
  induction c with
  | nil => rfl
  | cons k line children rest _ ihr =>
    rw [Forest.get_cons, dropVolatile]
    cases hv : isVolatile k with
    | true =>
      have hne : k ≠ key := by
        rintro rfl
        simp [h] at hv
      simpa [hne] using ihr
    | false =>
      by_cases hk : k = key <;> simp [hk, Forest.get_cons, ihr]

theorem children_of_volatile {key line : Str} {c : Forest} (h : Form key line c) (hv : isVolatile key = true) :
    c = .nil ∧ isOrdered [key] = false := by
  simp only [isVolatile, List.mem_map, decide_eq_true_eq] at hv
  obtain ⟨k, -, rfl⟩ := hv
  generalize hkey : lit "set " ++ k = key at h
  cases h with
  | set k' v =>
    refine ⟨rfl, ?_⟩
    simp [isOrdered, startsWith, lit, List.isPrefixOf]
  | edit n => simp [lit] at hkey
  | config w => simp [lit] at hkey

theorem lineAt_dropVolatile {c : Forest} (hc : Good c) (path : List Str) {key : Str} (hkey : isVolatile key = false) :
    lineAt (dropVolatile c) path key = lineAt c path key := by
  induction path generalizing c with
  | nil => cases h : c.get key <;> simp [lineAt, Forest.atPath, get_dropVolatile c key hkey, h]
  | cons k path ih =>
    rw [lineAt_cons, lineAt_cons]
    cases hv : isVolatile k with
    | true =>
      have hnone : (dropVolatile c).get k = none := by
        rw [Forest.get_eq_none, keys_dropVolatile]
        simp [hv]
      rw [hnone]
      cases hg : c.get k with
      | none => rfl
      | some n => simp [(children_of_volatile (hc.get hg).1 hv).1, lineAt_nil]
    | false =>
      rw [get_dropVolatile c k hv]
      cases hg : c.get k with
      | none => rfl
      | some n => exact ih (hc.get hg).2

theorem editNames_dropVolatile (c : Forest) : editNames (dropVolatile c) = editNames c := by
  rw [editNames, editNames, keys_dropVolatile, List.filter_filter]
  congr 1
  refine List.filter_congr (fun k _ => ?_)
  cases hv : isVolatile k with
  | false => simp
  | true =>
    simp only [isVolatile, List.mem_map, decide_eq_true_eq] at hv
    obtain ⟨w, -, rfl⟩ := hv
    simp

theorem atPath_dropVolatile {c : Forest} (hc : Good c) {path : List Str} (hp : isOrdered path = true) {f : Forest}
    (hf : c.atPath path = some f) : (dropVolatile c).atPath path = some (dropVolatile f) := by
  induction path generalizing c with
  | nil => simp [isOrdered] at hp
  | cons k path ih =>
    simp only [Forest.atPath, Option.bind_eq_some_iff] at hf
    obtain ⟨n, hg, hf⟩ := hf
    have hv : isVolatile k = false := by
      by_contra hv
      obtain ⟨hnil, hno⟩ := children_of_volatile (hc.get hg).1 (by simpa using hv)
      cases path with
      | nil => simp [hno] at hp
      | cons k' path =>
        rw [hnil] at hf
        simp [Forest.atPath] at hf
    simp only [Forest.atPath, get_dropVolatile c k hv, hg, Option.map_some, Option.bind_some]
    cases path with
    | nil =>
      simp only [Forest.atPath, Option.some.injEq] at hf ⊢
      rw [hf]
    | cons k' path =>
      exact ih (hc.get hg).2 (by simpa [isOrdered, List.getLast?_cons_cons] using hp) hf

theorem sameSettings_of_dropVolatile {b l : Forest} (hb : Good b) (hl : Good l)
    (h : SameSettings (dropVolatile b) (dropVolatile l)) : SameSettings b l where
  values := by
    intro path key hconfig hkey
    have hsame := h.values path key hconfig hkey
    rwa [lineAt_dropVolatile hb path hkey, lineAt_dropVolatile hl path hkey] at hsame
  order := by
    intro path f g hp hf hg
    have hsame := h.order path _ _ hp (atPath_dropVolatile hb hp hf) (atPath_dropVolatile hl hp hg)
    rwa [editNames_dropVolatile, editNames_dropVolatile] at hsame

/-! ## The comparison of two printed configurations -/

/-- An empty comparison of two configurations misses no setting, and the parser
ends both at the top level, when every line is printed on one line. -/
theorem no_setting_missed (b l : Forest) (hb : Good b) (hl : Good l) (hb1 : eachOneLine b = true)
    (hl1 : eachOneLine l = true) :
    (parseFrom (.nil, []) (_forti_lines (text b))).map Prod.snd = some [] ∧
    (parseFrom (.nil, []) (_forti_lines (text l))).map Prod.snd = some [] ∧
    ∃ d, diff_fortios (text b) (text l) = some d ∧ (d.is_empty = true → SameSettings b l) := by
  have hpb := parseFrom_text b hb hb1
  have hpl := parseFrom_text l hl hl1
  refine ⟨by rw [hpb]; rfl, by rw [hpl]; rfl, ?_⟩
  simp only [diff_fortios, parse_fortios, hpb, hpl, Option.map_some, Option.bind_some, Option.some.injEq,
    exists_eq_left']
  intro hempty
  have hgb := good_dropVolatile hb
  have hgl := good_dropVolatile hl
  have hres := restored_of_is_empty hgb hgl hempty
  refine sameSettings_of_dropVolatile hb hl ⟨?_, ?_⟩
  · exact fun path key hkey _ => lineAt_restored hgb hgl hres path key hkey
  · exact fun path f g hp hf hg => order_restored hgb hgl hres hp hf hg

/-- The disclaimer shown at the sign-in page of a device. -/
def disclaimer (value : Str) : Forest :=
  .cons (lit "config system replacemsg admin") (lit "config system replacemsg admin")
    (.cons (lit "set buffer") (lit "set buffer " ++ value) .nil .nil) .nil

theorem good_disclaimer {value : Str} (h : startsWord value = true) : Good (disclaimer value) := by
  have hs : lit "set buffer" = lit "set " ++ lit "buffer" := by with_unfolding_all decide
  have hv : lit "set buffer " ++ value = lit "set " ++ (lit "buffer" ++ ' ' :: value) := by simp [lit]
  have hc : lit "config system replacemsg admin" = lit "config " ++ lit "system replacemsg admin" := by
    with_unfolding_all decide
  refine ⟨by simp, ?_, ⟨by simp, ?_, trivial, trivial⟩, trivial⟩
  · rw [hc]
    exact .config _ (by with_unfolding_all decide) _
  · rw [hs, hv]
    exact .set (lit "buffer") value (by with_unfolding_all decide) h

/-- Two values on one line that are not the same. -/
theorem single_line_seen : ∃ d, diff_fortios (text (disclaimer (lit "\"Authorized users only\"")))
    (text (disclaimer (lit "\"Welcome\""))) = some d ∧ d.is_empty = false := by
  obtain ⟨-, -, d, hd, hsame⟩ := no_setting_missed (disclaimer (lit "\"Authorized users only\""))
    (disclaimer (lit "\"Welcome\"")) (good_disclaimer (by with_unfolding_all decide)) (good_disclaimer
      (by with_unfolding_all decide))
    (by with_unfolding_all decide) (by with_unfolding_all decide)
  refine ⟨d, hd, ?_⟩
  by_contra hempty
  have hvalues := (hsame (by simpa using hempty)).values [lit "config system replacemsg admin"] (lit "set buffer")
    (by with_unfolding_all decide) (by with_unfolding_all decide)
  rcases hvalues with heq | ⟨x, y, hx, -, henc, -⟩
  · exact absurd heq (by with_unfolding_all decide)
  · have hx' : lineAt (disclaimer (lit "\"Authorized users only\"")) [lit "config system replacemsg admin"]
        (lit "set buffer") = some (lit "set buffer \"Authorized users only\"") := by with_unfolding_all decide
    rw [hx', Option.some.injEq] at hx
    subst hx
    exact absurd henc (by with_unfolding_all decide)

def twoLines : Forest := disclaimer (lit "\"Authorized users only\nAll access is logged\"")

def otherTwoLines : Forest := disclaimer (lit "\"Authorized users only\nEverybody is welcome\"")

def configInside : Forest := disclaimer (lit "\"To change it type\nconfig system replacemsg\"")

/-- The second line of a value is not compared, and one that begins with a
configuration word leaves a scope open. -/
theorem second_line_missed :
    (Good twoLines ∧ Good otherTwoLines ∧ ¬ ∀ d, diff_fortios (text twoLines) (text otherTwoLines) = some d →
      d.is_empty = true → SameSettings twoLines otherTwoLines) ∧
    Good configInside ∧ (parseFrom (.nil, []) (_forti_lines (text configInside))).map Prod.snd ≠ some [] := by
  refine ⟨⟨good_disclaimer (by with_unfolding_all decide), good_disclaimer (by with_unfolding_all decide), ?_⟩,
    good_disclaimer (by with_unfolding_all decide), by with_unfolding_all decide⟩
  intro h
  have hempty : (diff_fortios (text twoLines) (text otherTwoLines)).map ConfigDiff.is_empty = some true := by
    with_unfolding_all decide
  obtain ⟨d, hd, hd'⟩ := Option.map_eq_some_iff.mp hempty
  have hvalues := (h d hd hd').values [lit "config system replacemsg admin"] (lit "set buffer")
    (by with_unfolding_all decide)
    (by with_unfolding_all decide)
  rcases hvalues with heq | ⟨x, y, hx, -, henc, -⟩
  · exact absurd heq (by with_unfolding_all decide)
  · have hx' : (lineAt twoLines [lit "config system replacemsg admin"] (lit "set buffer")).map _is_enc = some false := by
      with_unfolding_all decide
    rw [hx] at hx'
    simp [henc] at hx'

end FortiPrint
