import Ngcorion.Backup.CiscoKept

/-!
# When an IOS restore converges

The trees that `parse_cisco` builds file every line under itself, banners apart.
For two such trees, the commands of their comparison leave a device that
compares as equal to the backup exactly when, in every scope, no added line
displaces another line of the backup and every live-only line leaves.
-/
namespace CiscoConverge

open Text ConfigTree CiscoIOS CiscoDevice CiscoCompare CiscoRestore CiscoKept

/-! ## Parsed trees -/

/-- A tree of the parser: distinct keys, and lines filed under themselves
everywhere but in a banner. -/
def Parsed : Forest → Prop
  | .nil => True
  | .cons key line children rest =>
    key ∉ rest.keys ∧ (isBanner key = true ∨ line = key ∧ key.head? ≠ some ' ' ∧ Parsed children) ∧ Parsed rest

/-- Neither a banner nor a certificate chain anywhere. -/
def ordinary (u : Unicode) : Forest → Bool
  | .nil => true
  | .cons key _ children rest => !unrestorable u key && !isBanner key && ordinary u children && ordinary u rest

theorem parsed_iff (f : Forest) : Parsed f ↔ f.keys.Nodup ∧ ∀ e ∈ f.entries,
    isBanner e.1 = true ∨ e.2.1 = e.1 ∧ e.1.head? ≠ some ' ' ∧ Parsed e.2.2 := by
  induction f with
  | nil => simp [Parsed]
  | cons key line children rest _ ih =>
    simp only [Parsed, ih, Forest.keys_cons, List.nodup_cons, Forest.entries_cons, List.forall_mem_cons]
    tauto

theorem parsed_set {f : Forest} (h : Parsed f) {key line : Str} {c : Forest}
    (hnew : isBanner key = true ∨ line = key ∧ key.head? ≠ some ' ' ∧ Parsed c) : Parsed (f.set key line c) := by
  rw [parsed_iff] at h ⊢
  refine ⟨Forest.nodup_set f key line c h.1, ?_⟩
  intro e he
  simp only [Forest.set, Forest.entries_ofEntries] at he
  rcases Dict.mem_set f.entries key (line, c) e he with he | he
  · subst he
    exact hnew
  · exact h.2 e he

theorem parsed_child {f : Forest} (h : Parsed f) {line : Str} (hbare : line.head? ≠ some ' ') :
    Parsed (f.child line line) := by
  unfold Forest.child
  split
  · exact h
  · exact parsed_set h (Or.inr ⟨rfl, hbare, trivial⟩)

theorem parsed_changeAt (change : Forest → Forest) (hc : ∀ f, Parsed f → Parsed (change f)) (path : List Str)
    (hp : ∀ key ∈ path, isBanner key = false) (f : Forest) (hf : Parsed f) : Parsed (f.changeAt change path) := by
  induction path generalizing f with
  | nil => exact hc f hf
  | cons key path ih =>
    simp only [Forest.changeAt]
    cases hg : f.get key with
    | none => exact hf
    | some n =>
      obtain ⟨line, c⟩ := n
      have hentry := ((parsed_iff f).mp hf).2 (key, line, c) (Dict.mem_of_get _ _ _ hg)
      have hplain := hentry.resolve_left (by simp [hp key (by simp)])
      have hin := ih (fun k hk => hp k (by simp [hk])) c hplain.2.2
      exact parsed_set hf (Or.inr ⟨hplain.1, hplain.2.1, hin⟩)

theorem every_plain {u : Unicode} {f : Forest} (h : Parsed f) (ho : ordinary u f = true) : f.Every (Plain u) := by
  induction f with
  | nil => trivial
  | cons key line children rest ihc ihr =>
    simp only [ordinary, Bool.and_eq_true, Bool.not_eq_true'] at ho
    obtain ⟨⟨⟨hr, hb⟩, hoc⟩, hor⟩ := ho
    obtain ⟨hkey, hentry, hrest⟩ := h
    obtain ⟨hline, hbare, hchildren⟩ := hentry.resolve_left (by simp [hb])
    exact ⟨hkey, ⟨hline, hbare, hr, hb⟩, ihc hchildren hoc, ihr hrest hor⟩

/-! ## The parser -/

theorem head_strip (s : Str) : (strip s).head? ≠ some ' ' := by
  have hl : (lstrip s).head? ≠ some ' ' := by
    intro h
    have hnot := List.head?_dropWhile_not (p := isSpace) s
    rw [lstrip] at h
    rw [h] at hnot
    have hspace : isSpace ' ' = true := by decide
    simp [hspace] at hnot
  have hpre : rstrip (lstrip s) <+: lstrip s := by
    rw [rstrip]
    have hsuf := List.dropWhile_suffix (l := (lstrip s).reverse) isSpace
    exact List.reverse_suffix.mp (by simpa using hsuf)
  intro h
  obtain ⟨t, ht⟩ := hpre
  rw [strip] at h
  rw [← ht] at hl
  cases hr : rstrip (lstrip s) with
  | nil => simp [hr] at h
  | cons c r =>
    rw [hr] at h hl
    exact hl (by simpa using h)

theorem isBanner_lower {u : Unicode} {line : Str} (h : startsWith (lit "banner ") (u.lower line) = false) :
    isBanner line = false := by
  by_contra hb
  obtain ⟨t, rfl⟩ := (startsWith_iff _ _).mp (by simpa [isBanner] using hb)
  have hlow := u.lower_ascii (lit "banner ") t (forall_mem_of_all (by with_unfolding_all decide))
  have heq : (lit "banner ").map Char.toLower = lit "banner " := by with_unfolding_all decide
  rw [heq, h] at hlow
  exact absurd hlow (by simp)

/-- The parser's state: a parsed tree, and no banner on the way to the open scope
or among the banners that are being read. -/
structure StateOk (s : ParseState) : Prop where
  root : Parsed s.root
  stack : ∀ e ∈ s.stack, isBanner e.2 = false
  banner : ∀ b ∈ s.banner, isBanner b.1 = true

theorem stateOk_closeBanner {root : Forest} (h : Parsed root) {key : Str} (hk : isBanner key = true)
    (texts : List Str) : StateOk (closeBanner root key texts) :=
  ⟨parsed_set h (Or.inl hk), by simp [closeBanner], by simp [closeBanner]⟩

theorem stateOk_openBanner {s : ParseState} (h : StateOk s) (stripped : Str) : StateOk (openBanner s stripped) := by
  have hkey : ∀ t, isBanner (lit "banner " ++ t) = true := fun t => startsWith_append _ _
  simp only [openBanner]
  split
  · exact stateOk_closeBanner h.root (hkey _) _
  · refine ⟨h.root, h.stack, ?_⟩
    intro b hb
    cases hb
    exact hkey _

theorem parseStep_ok {u : Unicode} {s : ParseState} (h : StateOk s) (line : Str) : StateOk (parseStep u s line) := by
  simp only [parseStep]
  split
  · next key texts hb =>
    have hkey := h.banner (key, texts) (by simp [hb])
    split
    · exact stateOk_closeBanner h.root hkey _
    · refine ⟨h.root, h.stack, ?_⟩
      intro b hb'
      cases hb'
      exact hkey
  · by_cases hi : ignored u (strip (rstrip line)) = true
    · rwa [if_pos hi]
    rw [if_neg hi]
    by_cases hban : startsWith (lit "banner ") (u.lower (strip (rstrip line))) = true
    · rw [if_pos hban]
      exact stateOk_openBanner h _
    rw [if_neg hban]
    have hline : isBanner (strip (rstrip line)) = false := isBanner_lower (by simpa using hban)
    have hstack : ∀ e ∈ s.stack.dropWhile (fun e => indentOf (rstrip line) ≤ e.1), isBanner e.2 = false :=
      fun e he => h.stack e ((List.dropWhile_suffix _).subset he)
    refine ⟨?_, ?_, by simp⟩
    · apply parsed_changeAt _ (fun f hf => parsed_child hf (head_strip _)) _ _ _ h.root
      intro key hk
      obtain ⟨e, he, rfl⟩ := List.mem_map.mp (List.mem_reverse.mp hk)
      exact hstack e he
    · intro e he
      rcases List.mem_cons.mp he with rfl | he
      · exact hline
      · exact hstack e he

theorem parse_ok (u : Unicode) (text : Str) : Parsed (parse_cisco u text) := by
  have hrun : ∀ (ls : List Str) (s : ParseState), StateOk s → StateOk (ls.foldl (parseStep u) s) := by
    intro ls
    induction ls with
    | nil => exact fun s hs => hs
    | cons line ls ih => exact fun s hs => ih _ (parseStep_ok hs line)
  have hend := hrun (splitlines text) ⟨.nil, [], none⟩ ⟨trivial, by simp, by simp⟩
  simp only [parse_cisco, finish]
  split
  · next key texts hb => exact (stateOk_closeBanner hend.root (hend.banner (key, texts) (by simp [hb])) texts).root
  · exact hend.root

/-! ## The restore -/

/-- A line has a sub-mode on the device when it has one in either configuration. -/
def modes (b l : Forest) (q : List Str) : Bool := hasChildren b q || hasChildren l q

/-- The commands of the comparison, run on a device with the live configuration,
leave a configuration that compares as equal to the backup. -/
def Converges (u : Unicode) (backup_text live_text : Str) : Prop :=
  let b := parse_cisco u backup_text
  let l := parse_cisco u live_text
  (_cisco_diff u b (restored u (modes b l) b l) [] .empty).2.is_empty = true

instance (u : Unicode) (backup_text live_text : Str) : Decidable (Converges u backup_text live_text) :=
  inferInstanceAs (Decidable (_ = true))

/-- The restore converges exactly when in every scope the additions are sound and
every live-only line leaves. -/
theorem converges_iff (u : Unicode) (backup_text live_text : Str)
    (hb : ordinary u (parse_cisco u backup_text) = true) (hl : ordinary u (parse_cisco u live_text) = true) :
    Converges u backup_text live_text ↔
      Scopes u (ScopeSound u) (parse_cisco u backup_text) (parse_cisco u live_text) ∧
      Scopes u (ScopeClears u) (parse_cisco u backup_text) (parse_cisco u live_text) :=
  restored_is_empty_iff (every_plain (parse_ok u backup_text) hb) (every_plain (parse_ok u live_text) hl)
    (fun _ => rfl)

def mtuBackup : Str := lit "interface Gi0/1\n mtu 1500"

def mtuLive : Str := lit "ip http server\ninterface Gi0/1\n mtu 9000"

/-- A changed interface setting and a further global line are restored. -/
theorem mtu_converges :
    Scopes ascii (ScopeSound ascii) (parse_cisco ascii mtuBackup) (parse_cisco ascii mtuLive) ∧
      Scopes ascii (ScopeClears ascii) (parse_cisco ascii mtuBackup) (parse_cisco ascii mtuLive) :=
  (converges_iff ascii mtuBackup mtuLive (by with_unfolding_all decide) (by with_unfolding_all decide)).mp
    (by with_unfolding_all decide)

/-- A live line of another setting with the same first two words is never removed. -/
theorem aaa_not_converges :
    ordinary ascii (parse_cisco ascii (lit "aaa authentication login default local")) = true ∧
    ordinary ascii (parse_cisco ascii (lit "aaa authentication enable default none")) = true ∧
    ¬ Converges ascii (lit "aaa authentication login default local") (lit "aaa authentication enable default none") := by
  with_unfolding_all decide

end CiscoConverge
