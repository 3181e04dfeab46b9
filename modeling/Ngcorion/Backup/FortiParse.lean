import Ngcorion.Backup.FortiScope

/-!
# The trees that `parse_fortios` builds

Every scope of such a tree has distinct keys, a scope line is filed under
itself, and a setting under its key and without children. When the device reads
each line as one of the three forms, the tree is well formed.
-/
namespace FortiParse

open Text ConfigTree FortiOS FortiDevice FortiScope

/-- How the parser files a line. -/
def Filed (key line : Str) (children : Forest) : Prop :=
  if verb line = lit "set" then key = _forti_key line ∧ children = .nil else key = line

theorem verb_forti_key (line : Str) (h : verb line = lit "set") : verb (_forti_key line) = lit "set" := by
  unfold _forti_key
  split
  · split
    · simp
    · exact h
  · exact h

theorem Filed.children {key line : Str} {children : Forest} (h : Filed key line children)
    (hv : verb key ≠ lit "set") (c : Forest) : Filed key line c := by
  unfold Filed at h ⊢
  by_cases hl : verb line = lit "set"
  · rw [if_pos hl] at h
    exact absurd (h.1 ▸ verb_forti_key line hl) hv
  · rwa [if_neg hl] at h ⊢

theorem every_changeAt (change : Forest → Forest) (hc : ∀ g, g.Every Filed → (change g).Every Filed)
    (path : List Str) (hp : ∀ key ∈ path, verb key ≠ lit "set") (f : Forest) (hf : f.Every Filed) :
    (Forest.changeAt change path f).Every Filed := by
  induction path generalizing f with
  | nil => exact hc f hf
  | cons key path ih =>
    simp only [Forest.changeAt]
    cases hg : f.get key with
    | none => exact hf
    | some v =>
      obtain ⟨line, children⟩ := v
      obtain ⟨hfiled, hchildren⟩ := hf.get hg
      have hin := ih (fun k hk => hp k (by simp [hk])) children hchildren
      exact hf.set (hfiled.children (hp key (by simp)) _) hin

/-- The parser's state: a filed tree, and scope lines on the way to the open scope. -/
def StateOk (s : Forest × List Str) : Prop := s.1.Every Filed ∧ ∀ key ∈ s.2, verb key ≠ lit "set"

theorem every_child {f : Forest} (hf : f.Every Filed) {line : Str} (hv : verb line ≠ lit "set") :
    (f.child line line).Every Filed := by
  unfold Forest.child
  split
  · exact hf
  · exact hf.set (by simp [Filed, hv]) trivial

theorem parseStep_ok {s s' : Forest × List Str} {line : Str} (hs : StateOk s) (h : parseStep s line = some s') :
    StateOk s' := by
  obtain ⟨root, path⟩ := s
  obtain ⟨hroot, hpath⟩ := hs
  simp only [parseStep] at h
  by_cases hscope : verb line = lit "config" ∨ verb line = lit "edit"
  · have hv : verb line ≠ lit "set" := by
      rcases hscope with hv | hv
      · rw [hv]
        exact verb_ne.2.1
      · rw [hv]
        exact verb_ne.1
    rw [if_pos hscope] at h
    cases h
    refine ⟨every_changeAt _ (fun g hg => every_child hg hv) path hpath root hroot, ?_⟩
    intro key hk
    rcases List.mem_append.mp hk with hk | hk
    · exact hpath key hk
    · rw [List.mem_singleton.mp hk]
      exact hv
  rw [if_neg hscope] at h
  by_cases hend : verb line = lit "end" ∨ verb line = lit "next"
  · rw [if_pos hend] at h
    cases h
    exact ⟨hroot, fun key hk => hpath key (List.dropLast_subset path hk)⟩
  rw [if_neg hend] at h
  by_cases hset : verb line = lit "set"
  · rw [if_pos hset] at h
    have hfile : ∀ g : Forest, g.Every Filed → (g.set (_forti_key line) line .nil).Every Filed :=
      fun g hg => hg.set (by simp [Filed, hset]) trivial
    split at h
    · simp at h
    · split at h
      · cases h
        exact ⟨hroot, hpath⟩
      · cases h
        exact ⟨every_changeAt _ hfile path hpath root hroot, hpath⟩
  · rw [if_neg hset] at h
    cases h
    exact ⟨hroot, hpath⟩

theorem parseFrom_ok (ls : List Str) {s s' : Forest × List Str} (hs : StateOk s) (h : parseFrom s ls = some s') :
    StateOk s' := by
  induction ls generalizing s with
  | nil =>
    cases h
    exact hs
  | cons line ls ih =>
    simp only [parseFrom, Option.bind_eq_some_iff] at h
    obtain ⟨s₁, hstep, hrest⟩ := h
    exact ih (parseStep_ok hs hstep) hrest

theorem parse_filed {text : Str} {f : Forest} (h : parse_fortios text = some f) : f.Every Filed := by
  simp only [parse_fortios, Option.map_eq_some_iff] at h
  obtain ⟨s, hs, rfl⟩ := h
  have hstart : StateOk (.nil, []) := ⟨trivial, by simp⟩
  exact (parseFrom_ok _ hstart hs).1

/-! ## Lines the device reads -/

/-- A configuration line as the command line has it. -/
def wellRead (line : Str) : Bool :=
  match readCommand line with
  | some (.config _) => true
  | some (.edit _) => true
  | some (.set _ _) => true
  | _ => false

/-- Every line of the tree has the form `config <words>`, `edit <name>` or
`set <key> <value>`. -/
def linesWellRead : Forest → Bool
  | .nil => true
  | .cons _ line children rest => wellRead line && linesWellRead children && linesWellRead rest

theorem cut_eq (s : Str) (h : (cut s).2 ≠ []) : s = (cut s).1 ++ ' ' :: (cut s).2 := by
  have hsplit : s.takeWhile (· ≠ ' ') ++ s.dropWhile (· ≠ ' ') = s := List.takeWhile_append_dropWhile
  simp only [cut] at h ⊢
  cases hd : s.dropWhile (· ≠ ' ') with
  | nil =>
    rw [hd] at h
    simp at h
  | cons c t =>
    have hc : c = ' ' := by
      have hh := List.head?_dropWhile_not (p := fun c : Char => decide (c ≠ ' ')) s
      rw [hd] at hh
      simpa using hh
    rw [hd, hc] at hsplit
    simpa [hd] using hsplit.symm

theorem ne_nil_of_startsWord {s : Str} (h : startsWord s = true) : s ≠ [] := by
  rintro rfl
  simp [startsWord] at h

theorem ne_nil_of_oneWord {s : Str} (h : oneWord s = true) : s ≠ [] :=
  ne_nil_of_startsWord (startsWord_of_oneWord s h)

theorem forti_key_set (k v : Str) (hk : isKey k = true) (hv : startsWord v = true) :
    _forti_key (lit "set " ++ (k ++ ' ' :: v)) = lit "set " ++ k := by
  rw [_forti_key, words_set, splitMax_word 1 _ _ isKey_verbs.1, splitMax_word 0 k v hk, splitMax_zero v hv]
  simp

/-- A filed line that the device reads is in one of the three forms. -/
theorem form_of_filed {key line : Str} {children : Forest} (hf : Filed key line children)
    (hw : wellRead line = true) : Form key line children := by
  have hv := verb_ne
  simp only [wellRead, readCommand] at hw
  by_cases hc : (cut line).1 = lit "config"
  · have hword : startsWord (cut line).2 = true := by
      by_contra hn
      simp [hc, hn] at hw
    have hline := cut_eq line (ne_nil_of_startsWord hword)
    rw [hc, ← words_config] at hline
    generalize (cut line).2 = w at hline hword
    subst hline
    simp only [Filed, verb_config, hv, if_false] at hf
    rw [hf]
    exact .config w hword children
  by_cases he : (cut line).1 = lit "edit"
  · have hword : oneWord (cut line).2 = true := by
      by_contra hn
      simp [he, hn, hv.2.2.symm] at hw
    have hline := cut_eq line (ne_nil_of_oneWord hword)
    rw [he, ← words_edit] at hline
    generalize (cut line).2 = n at hline hword
    subst hline
    simp only [Filed, verb_edit, hv, if_false] at hf
    rw [hf]
    exact .edit n hword children
  by_cases hs : (cut line).1 = lit "set"
  · have hparts : isKey (cut (cut line).2).1 = true ∧ startsWord (cut (cut line).2).2 = true := by
      by_contra hn
      rw [← Bool.and_eq_true, Bool.not_eq_true] at hn
      simp [hs, hn, hv.1.symm, hv.2.1.symm] at hw
    have hrest := cut_eq (cut line).2 (ne_nil_of_startsWord hparts.2)
    have hne : (cut line).2 ≠ [] := by
      rw [hrest]
      simp
    have hline := cut_eq line hne
    rw [hs, hrest, ← words_set] at hline
    generalize (cut (cut line).2).1 = k at hline hparts
    generalize (cut (cut line).2).2 = v at hline hparts
    subst hline
    simp only [Filed, verb_set, if_true, forti_key_set k v hparts.1 hparts.2] at hf
    rw [hf.1, hf.2]
    exact .set k v hparts.1 hparts.2
  · exfalso
    simp only [hc, he, hs, if_false] at hw
    by_cases hend : line = lit "end"
    · simp [hend] at hw
    rw [if_neg hend] at hw
    by_cases hnext : line = lit "next"
    · simp [hnext] at hw
    rw [if_neg hnext] at hw
    by_cases hunset : (cut line).1 = lit "unset"
    · by_cases hk : isKey (cut line).2 = true <;> simp [hunset, hk] at hw
    rw [if_neg hunset] at hw
    by_cases hdelete : (cut line).1 = lit "delete"
    · by_cases hn : oneWord (cut line).2 = true <;> simp [hdelete, hn] at hw
    rw [if_neg hdelete] at hw
    by_cases hmove : (cut line).1 = lit "move"
    · simp only [hmove, if_true, readMove] at hw
      split_ifs at hw
    · simp [hmove] at hw

theorem good_of_filed {f : Forest} (hf : f.Every Filed) (hw : linesWellRead f = true) : Good f := by
  induction f with
  | nil => trivial
  | cons key line children rest ihc ihr =>
    simp only [linesWellRead, Bool.and_eq_true] at hw
    obtain ⟨hr, hline, hchildren, hrest⟩ := hf
    exact ⟨hr, form_of_filed hline hw.1.1, ihc hchildren hw.1.2, ihr hrest hw.2⟩

/-- A parsed configuration whose lines the device reads is well formed. -/
theorem good_of_parse {text : Str} {f : Forest} (h : parse_fortios text = some f) (hw : linesWellRead f = true) :
    Good f := good_of_filed (parse_filed h) hw

end FortiParse
