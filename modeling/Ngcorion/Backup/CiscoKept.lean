import Ngcorion.Backup.CiscoRestore

/-!
# What no command list can do to an IOS device

Lines that begin with `no`, and a line `exit`, are never added and never entered,
and a line never joins one that it displaces or that displaces it. So a scope
that needs one of these is not restored by any commands.
-/
namespace CiscoKept

open Text ConfigTree CiscoIOS CiscoDevice CiscoCompare CiscoRestore

/-! ## Conditions on scopes that commands keep -/

section
variable (u : Unicode) (A : Str → Prop)

/-- A condition on the scopes of a configuration that every command keeps, when
the lines that are added satisfy `A`. -/
structure Stable (P : List Str → Forest → Prop) : Prop where
  empty : ∀ p, P p .nil
  erase : ∀ p f key, P p f → P p (f.erase key)
  add : ∀ p f line, A line → inert u line = false → P p f → P p (addLine u line f)
  inside : ∀ p f key line c, inert u key = false → key ∈ f.keys → P p f → P p (f.set key line c)

def Everywhere (P : List Str → Forest → Prop) (root : Forest) : Prop := ∀ p f, root.atPath p = some f → P p f

/-- A command that adds a line only if it satisfies `A`. -/
def Sends (cmd : Str) : Prop :=
  inert u (cmd.dropWhile (· = ' ')) = true ∨ A (cmd.dropWhile (· = ' '))

end

section
variable {u : Unicode} {A : Str → Prop} {P : List Str → Forest → Prop}

theorem Stable.under (hs : Stable u A P) (key : Str) : Stable u A (fun q => P (key :: q)) :=
  ⟨fun p => hs.empty (key :: p), fun p => hs.erase (key :: p), fun p => hs.add (key :: p),
    fun p => hs.inside (key :: p)⟩

theorem Everywhere.get {root c : Forest} {key line : Str} (h : Everywhere P root) (hg : root.get key = some (line, c)) :
    Everywhere (fun q => P (key :: q)) c := by
  intro q f hq
  apply h (key :: q) f
  simp [Forest.atPath, hg, hq]

theorem everywhere_erase (hs : Stable u A P) {f : Forest} (key : Str) (h : Everywhere P f) :
    Everywhere P (f.erase key) := by
  intro p g hp
  cases p with
  | nil =>
    cases hp
    exact hs.erase [] f key (h [] f rfl)
  | cons k p =>
    simp only [Forest.atPath, Forest.get_erase] at hp
    by_cases hk : key = k
    · simp [hk] at hp
    · rw [if_neg hk] at hp
      exact h (k :: p) g hp

theorem everywhere_addLine (hs : Stable u A P) {f : Forest} (line : Str) (ha : A line) (hi : inert u line = false)
    (h : Everywhere P f) : Everywhere P (addLine u line f) := by
  by_cases hmem : line ∈ f.keys
  · rwa [addLine_of_mem u line f hmem]
  intro p g hp
  cases p with
  | nil =>
    cases hp
    exact hs.add [] f line ha hi (h [] f rfl)
  | cons k p =>
    simp only [Forest.atPath, get_addLine u line f hmem] at hp
    by_cases hk : k = line
    · rw [if_pos hk, Option.bind_some] at hp
      cases p with
      | nil =>
        cases hp
        exact hs.empty [k]
      | cons k' p => simp [Forest.atPath] at hp
    · rw [if_neg hk] at hp
      by_cases hd : displaces u line k = true
      · simp [hd] at hp
      · simp only [hd, Bool.false_eq_true, if_false] at hp
        exact h (k :: p) g hp

theorem everywhere_changeAt (change : Forest → Forest) (path : List Str) (hs : Stable u A P)
    (hpath : ∀ key ∈ path, inert u key = false) (root : Forest) (h : Everywhere P root)
    (hc : ∀ f, Everywhere (fun q => P (path ++ q)) f → Everywhere (fun q => P (path ++ q)) (change f)) :
    Everywhere P (root.changeAt change path) := by
  induction path generalizing P root with
  | nil => exact hc root h
  | cons key path ih =>
    simp only [Forest.changeAt]
    cases hg : root.get key with
    | none => exact h
    | some n =>
      obtain ⟨line, c⟩ := n
      have hinside := ih (hs.under key) (fun k hk => hpath k (by simp [hk])) c (h.get hg) hc
      have hmem : key ∈ root.keys := by simp [Forest.mem_keys, hg]
      intro p f hp
      cases p with
      | nil =>
        cases hp
        exact hs.inside [] root key line _ (hpath key (by simp)) hmem (h [] root rfl)
      | cons k p =>
        simp only [Forest.atPath, Forest.get_set] at hp
        by_cases hk : key = k
        · rw [if_pos hk, Option.bind_some] at hp
          exact hk ▸ hinside p f hp
        · rw [if_neg hk] at hp
          exact h (k :: p) f hp

theorem Stable.shift (hs : Stable u A P) (path : List Str) : Stable u A (fun q => P (path ++ q)) := by
  induction path generalizing P with
  | nil => exact hs
  | cons key path ih => exact ih (hs.under key)

/-- One command keeps a stable condition, and the open path has no inert line. -/
theorem exec_everywhere (hs : Stable u A P) (opens : List Str → Bool) (cmd : Str) (hcmd : Sends u A cmd) (d : Device)
    (hpath : ∀ key ∈ d.path, inert u key = false) (h : Everywhere P d.root) :
    Everywhere P (exec u opens cmd d).root ∧ ∀ key ∈ (exec u opens cmd d).path, inert u key = false := by
  simp only [exec]
  by_cases hexit : cmd.dropWhile (· = ' ') = lit "exit"
  · rw [if_pos hexit]
    exact ⟨h, fun key hk => hpath key (List.dropLast_subset _ hk)⟩
  rw [if_neg hexit]
  by_cases hneg : isNegative u (cmd.dropWhile (· = ' ')) = true
  · rw [if_pos hneg]
    exact ⟨everywhere_changeAt _ d.path hs hpath d.root h (fun f hf => everywhere_erase (hs.shift d.path) _ hf), hpath⟩
  · rw [if_neg hneg]
    have hi : inert u (cmd.dropWhile (· = ' ')) = false := by simp [inert, hexit, hneg]
    have ha : A (cmd.dropWhile (· = ' ')) := hcmd.resolve_left (by simp [hi])
    refine ⟨everywhere_changeAt _ d.path hs hpath d.root h
      (fun f hf => everywhere_addLine (hs.shift d.path) _ ha hi hf), ?_⟩
    intro key hk
    by_cases ho : opens (d.path ++ [cmd.dropWhile (· = ' ')]) = true
    · simp only [ho, if_true, List.mem_append, List.mem_singleton] at hk
      rcases hk with hk | hk
      · exact hpath key hk
      · rw [hk, hi]
    · simp only [ho, Bool.false_eq_true, if_false] at hk
      exact hpath key hk

/-- A run keeps a stable condition. -/
theorem execAll_everywhere (hs : Stable u A P) (opens : List Str → Bool) (cmds : List Str)
    (hcmds : ∀ cmd ∈ cmds, Sends u A cmd) (d : Device) (hpath : ∀ key ∈ d.path, inert u key = false)
    (h : Everywhere P d.root) : Everywhere P (execAll u opens cmds d).root := by
  induction cmds generalizing d with
  | nil => exact h
  | cons cmd cmds ih =>
    obtain ⟨hroot, hpath'⟩ := exec_everywhere hs opens cmd (hcmds cmd (by simp)) d hpath h
    exact ih (fun c hc => hcmds c (by simp [hc])) _ hpath' hroot

end

/-! ## A scope and what it began as -/

/-- What a scope that began as `l` can have become. -/
structure Kept (u : Unicode) (l f : Forest) : Prop where
  nodup : f.keys.Nodup
  restorable : ∀ key ∈ f.keys, unrestorable u key = false
  fixed : ∀ x line c, inert u x = true → f.get x = some (line, c) → ∃ old, l.get x = some (old, c)
  apart : ∀ x ∈ f.keys, ∀ y ∈ f.keys, y ≠ x → displaces u x y = true → x ∈ l.keys

def scopeAt (f : Forest) (p : List Str) : Forest := (f.atPath p).getD .nil

variable {u : Unicode}

theorem nodup_place (gives : Str → Bool) (line : Str) (es : List (Str × Str × Forest)) (hn : (Dict.keys es).Nodup)
    (hl : line ∉ Dict.keys es) :
    (Dict.keys (place gives line es)).Nodup ∧ ∀ k ∈ Dict.keys (place gives line es), k = line ∨ k ∈ Dict.keys es := by
  induction es with
  | nil => simp [place]
  | cons e es ih =>
    obtain ⟨key, v⟩ := e
    simp only [Dict.keys_cons, List.nodup_cons, List.mem_cons, not_or] at hn hl
    have hsub : ∀ k ∈ Dict.keys (es.filter (fun e => !gives e.1)), k ∈ Dict.keys es := by
      intro k hk
      obtain ⟨e, he, rfl⟩ := List.mem_map.mp hk
      exact List.mem_map_of_mem (List.mem_of_mem_filter he)
    by_cases hg : gives key = true
    · simp only [place, hg, if_true, Dict.keys_cons, List.nodup_cons, List.mem_cons]
      refine ⟨⟨fun h => hl.2 (hsub line h), ?_⟩, fun k hk => hk.imp id (fun h => Or.inr (hsub k h))⟩
      exact hn.2.sublist (List.filter_sublist.map Prod.fst)
    · obtain ⟨hnodup, hmem⟩ := ih hn.2 hl.2
      simp only [place, hg, Bool.false_eq_true, if_false, Dict.keys_cons, List.nodup_cons, List.mem_cons]
      refine ⟨⟨fun h => ?_, hnodup⟩, ?_⟩
      · rcases hmem key h with h | h
        · exact hl.1 h.symm
        · exact hn.1 h
      · rintro k (rfl | hk)
        · exact Or.inr (Or.inl rfl)
        · exact (hmem k hk).imp id Or.inr

theorem sameSetting_symm {a b : Str} (h : sameSetting u a b = true) : sameSetting u b a = true := by
  simp only [sameSetting, Bool.and_eq_true, decide_eq_true_eq] at h ⊢
  exact ⟨h.2 ▸ h.1, h.2.symm⟩

theorem Kept.erase {l f : Forest} (h : Kept u l f) (key : Str) : Kept u l (f.erase key) := by
  have hsub : ∀ k ∈ (f.erase key).keys, k ∈ f.keys := by
    intro k hk
    rw [Forest.keys_erase] at hk
    exact List.mem_of_mem_filter hk
  refine ⟨?_, fun k hk => h.restorable k (hsub k hk), ?_, fun x hx y hy => h.apart x (hsub x hx) y (hsub y hy)⟩
  · rw [Forest.keys_erase]
    exact h.nodup.filter _
  · intro x line c hi hg
    rw [Forest.get_erase] at hg
    by_cases hk : key = x
    · simp [hk] at hg
    · rw [if_neg hk] at hg
      exact h.fixed x line c hi hg

theorem Kept.add {l f : Forest} (h : Kept u l f) (line : Str) (hr : unrestorable u line = false)
    (hi : inert u line = false) : Kept u l (addLine u line f) := by
  by_cases hmem : line ∈ f.keys
  · rwa [addLine_of_mem u line f hmem]
  have hget := get_addLine u line f hmem
  have hplace := nodup_place (displaces u line) line f.entries h.nodup hmem
  have hkeys : (addLine u line f).keys = Dict.keys (place (displaces u line) line f.entries) := by
    rw [addLine, if_neg hmem, Forest.keys, Forest.entries_ofEntries]
  have hgone : ∀ k, k ≠ line → k ∈ (addLine u line f).keys → displaces u line k = false ∧ k ∈ f.keys := by
    intro k hk hkf
    rw [Forest.mem_keys, hget, if_neg hk] at hkf
    by_cases hd : displaces u line k = true
    · simp [hd] at hkf
    · simp only [hd, Bool.false_eq_true, if_false] at hkf
      exact ⟨by simpa using hd, (Forest.mem_keys f k).mpr hkf⟩
  refine ⟨hkeys ▸ hplace.1, ?_, ?_, ?_⟩
  · intro k hk
    by_cases hkl : k = line
    · rw [hkl, hr]
    · exact h.restorable k (hgone k hkl hk).2
  · intro x ln c hx hg
    have hne : x ≠ line := by
      rintro rfl
      simp [hi] at hx
    rw [hget, if_neg hne] at hg
    by_cases hd : displaces u line x = true
    · simp [hd] at hg
    · simp only [hd, Bool.false_eq_true, if_false] at hg
      exact h.fixed x ln c hx hg
  · intro x hx y hy hne hd
    by_cases hxl : x = line
    · subst hxl
      have hfree := (hgone y hne hy).1
      simp [hfree] at hd
    · obtain ⟨hfree, hxf⟩ := hgone x hxl hx
      by_cases hyl : y = line
      · subst hyl
        simp only [displaces, Bool.or_eq_true, decide_eq_true_eq] at hd
        rcases hd with hd | hd
        · have hneg := isNegative_no u x
          simp [inert, hd, hneg] at hi
        · simp [displaces, sameSetting_symm hd] at hfree
      · exact h.apart x hxf y (hgone y hyl hy).2 hne hd

theorem Kept.inside {l f : Forest} (h : Kept u l f) (key line : Str) (c : Forest) (hi : inert u key = false)
    (hmem : key ∈ f.keys) : Kept u l (f.set key line c) := by
  have hkeys : (f.set key line c).keys = f.keys := by rw [Forest.keys_set, if_pos hmem]
  refine ⟨hkeys ▸ h.nodup, hkeys ▸ h.restorable, ?_, hkeys ▸ h.apart⟩
  intro x ln c' hx hg
  have hne : key ≠ x := by
    rintro rfl
    simp [hi] at hx
  rw [Forest.get_set, if_neg hne] at hg
  exact h.fixed x ln c' hx hg

theorem stable_kept (u : Unicode) (l : Forest) :
    Stable u (fun line => unrestorable u line = false) (fun p => Kept u (scopeAt l p)) where
  empty _ := ⟨by simp, by simp, by simp, by simp⟩
  erase _ _ key h := h.erase key
  add _ _ line hr hi h := h.add line hr hi
  inside _ _ key line c hi hmem h := h.inside key line c hi hmem

/-! ## The commands of a comparison -/

/-- A command that adds no certificate chain. -/
def Safe (u : Unicode) (cmd : Str) : Prop := Sends u (fun line => unrestorable u line = false) cmd

theorem safe_indented {key : Str} (depth : Nat) (hbare : key.head? ≠ some ' ') (hr : unrestorable u key = false) :
    Safe u (indented depth key) := by
  rw [Safe, Sends, dropWhile_indented depth key hbare]
  exact Or.inr hr

theorem safe_exit (u : Unicode) (depth : Nat) : Safe u (indented depth (lit "exit")) := by
  rw [Safe, Sends, dropWhile_indented depth (lit "exit") (by with_unfolding_all decide)]
  exact Or.inl (by simp [inert])

theorem safe_no (u : Unicode) (key : Str) : Safe u (noCommand key) := by
  have hdrop : (noCommand key).dropWhile (· = ' ') = noCommand key := by simp [noCommand, lit]
  rw [Safe, Sends, hdrop]
  exact Or.inl (by simp [inert, isNegative_no])

theorem safe_block (c : Forest) (hc : c.Every (Plain u)) (depth : Nat) : ∀ cmd ∈ blockBody depth c, Safe u cmd := by
  induction c generalizing depth with
  | nil => simp
  | cons key line children rest ihc ihr =>
    obtain ⟨-, hplain, hchildren, hrest⟩ := hc
    have hline := hplain.line_eq
    subst hline
    intro cmd hcmd
    simp only [blockBody_cons, List.mem_cons, List.mem_append] at hcmd
    rcases hcmd with rfl | hcmd | hcmd
    · exact safe_indented depth hplain.bare hplain.restorable
    · by_cases hnil : children = .nil
      · simp [hnil] at hcmd
      · simp only [hnil, if_false, List.mem_append, List.mem_singleton] at hcmd
        rcases hcmd with hcmd | rfl
        · exact ihc hchildren (depth + 1) cmd hcmd
        · exact safe_exit u depth
    · exact ihr hrest depth cmd hcmd

theorem safe_enter {key : Str} {inner : List Str} (hbare : key.head? ≠ some ' ') (hr : unrestorable u key = false)
    (hin : ∀ cmd ∈ inner, Safe u cmd) : ∀ cmd ∈ enter key inner, Safe u cmd := by
  intro cmd hcmd
  by_cases hnil : inner = []
  · simp [enter, hnil] at hcmd
  · simp only [enter, hnil, if_false, List.mem_cons, List.mem_append, List.not_mem_nil, or_false] at hcmd
    rcases hcmd with rfl | hcmd | rfl
    · exact safe_indented 0 hbare hr
    · exact hin cmd hcmd
    · exact safe_exit u 0

theorem safe_diff_of_loop {path : List Str} {b l : Forest} (diff : ConfigDiff) (hl : l.Every (Plain u))
    (h : ∀ cmd ∈ (backupLoop u path b l ⟨diff, none⟩).adds ++ (backupLoop u path b l ⟨diff, none⟩).nested, Safe u cmd) :
    ∀ cmd ∈ (_cisco_diff u b l path diff).1, Safe u cmd := by
  intro cmd hcmd
  simp only [_cisco_diff, liveLoop_commands _ _ _ l hl] at hcmd
  rcases List.mem_append.mp hcmd with hcmd | hcmd
  · exact h cmd hcmd
  · obtain ⟨key, -, rfl⟩ := List.mem_map.mp hcmd
    exact safe_no u key

theorem safe_loop (b : Forest) (hb : b.Every (Plain u)) (path : List Str) (l : Forest) (hl : l.Every (Plain u))
    (m : Marks) : ∀ cmd ∈ (backupLoop u path b l m).adds ++ (backupLoop u path b l m).nested, Safe u cmd := by
  induction b generalizing path l m with
  | nil => simp
  | cons key line children rest ihc ihr =>
    obtain ⟨-, hplain, hchildren, hrest⟩ := hb
    intro cmd hcmd
    cases hg : l.get key with
    | none =>
      rw [backupLoop_new hplain hg] at hcmd
      simp only [List.append_assoc] at hcmd
      rcases List.mem_append.mp hcmd with hcmd | hcmd
      · have hentry : (Forest.cons key key children .nil).Every (Plain u) :=
          ⟨by simp, ⟨rfl, hplain.bare, hplain.restorable, hplain.no_banner⟩, hchildren, trivial⟩
        exact safe_block _ hentry 0 cmd hcmd
      · exact ihr hrest path l hl _ cmd hcmd
    | some n =>
      obtain ⟨old, lc⟩ := n
      have hlc := (hl.get hg).2
      by_cases hnil : children = .nil ∧ lc = .nil
      · obtain ⟨rfl, rfl⟩ := hnil
        rw [backupLoop_leaf hplain hg] at hcmd
        exact ihr hrest path l hl m cmd hcmd
      · rw [backupLoop_scope hplain hg hnil] at hcmd
        have hinner := safe_diff_of_loop m.diff hlc (ihc hchildren (path ++ [key]) lc hlc ⟨m.diff, none⟩)
        have hlater := ihr hrest path l hl ⟨(_cisco_diff u children lc (path ++ [key]) m.diff).2, m.current⟩ cmd
        simp only [List.mem_append] at hcmd hlater
        rcases hcmd with hcmd | hcmd | hcmd
        · exact hlater (Or.inl hcmd)
        · exact safe_enter hplain.bare hplain.restorable hinner cmd hcmd
        · exact hlater (Or.inr hcmd)

/-! ## What a restore needs -/

/-- Every scope of `g` can have come from the scope of `l` at the same path. -/
def Within (u : Unicode) (l g : Forest) : Prop := Everywhere (fun p => Kept u (scopeAt l p)) g

theorem Within.get {l g c : Forest} {key line : Str} (h : Within u l g) (hg : g.get key = some (line, c)) :
    Within u (scopeAt l [key]) c := by
  have hscope : ∀ q, scopeAt l (key :: q) = scopeAt (scopeAt l [key]) q := by
    intro q
    simp only [scopeAt, Forest.atPath]
    cases l.get key with
    | none => cases q <;> simp [Forest.atPath]
    | some n => simp
  intro q f hq
  have hf : Kept u (scopeAt l (key :: q)) f := Everywhere.get h hg q f hq
  rwa [hscope q] at hf

theorem within_refl {l : Forest} (hl : l.Every (Plain u)) : Within u l l := by
  intro p f hp
  have hf : f.Every (Plain u) := by
    induction p generalizing l with
    | nil =>
      cases hp
      exact hl
    | cons key p ih =>
      simp only [Forest.atPath, Option.bind_eq_some_iff] at hp
      obtain ⟨n, hn, hp⟩ := hp
      exact ih (hl.get hn).2 hp
  have hscope : scopeAt l p = f := by rw [scopeAt, hp, Option.getD_some]
  rw [hscope]
  refine ⟨hf.nodup, ?_, fun x line c _ hg => ⟨line, hg⟩, fun x hx y _ _ _ => hx⟩
  intro key hkey
  obtain ⟨e, he, rfl⟩ := List.mem_map.mp hkey
  exact (hf.entry he).1.restorable

theorem noChains_of_entries (g : Forest) (hr : ∀ key ∈ g.keys, unrestorable u key = false)
    (h : ∀ e ∈ g.entries, ∃ l, Within u l e.2.2) : NoChains u g := by
  induction g with
  | nil => trivial
  | cons key line children rest ihc ihr =>
    obtain ⟨l, hin⟩ := h (key, line, children) (by simp)
    have hroot : Kept u (scopeAt l []) children := hin [] children rfl
    refine ⟨hr key (by simp), ihc hroot.restorable ?_, ihr (fun k hk => hr k (by simp [hk]))
      (fun e he => h e (by simp [he]))⟩
    intro e he
    exact ⟨_, hin.get ((Forest.get_eq_some children hroot.nodup e.1 e.2.1 e.2.2).mpr he)⟩

theorem Within.noChains {l g : Forest} (h : Within u l g) : NoChains u g := by
  have hroot : Kept u (scopeAt l []) g := h [] g rfl
  apply noChains_of_entries g hroot.restorable
  intro e he
  exact ⟨_, h.get ((Forest.get_eq_some g hroot.nodup e.1 e.2.1 e.2.2).mpr he)⟩

theorem keys_of_covers {b g : Forest} (h : Covers b g) (x : Str) (hx : x ∈ b.keys) : x ∈ g.keys := by
  obtain ⟨e, he, rfl⟩ := List.mem_map.mp hx
  obtain ⟨line, c, hg, -⟩ := (covers_iff b g).mp h e he
  simp [Forest.mem_keys, hg]

/-- A scope that comes to hold the backup's lines was sound from the start. -/
theorem scopeSound_of_covers {b l g : Forest} (h : Kept u l g) (hc : Covers b g) : ScopeSound u b l := by
  intro x hx
  have hxg := keys_of_covers hc x hx.1
  constructor
  · by_contra hi
    obtain ⟨⟨line, c⟩, hg⟩ := Option.ne_none_iff_exists'.mp ((Forest.mem_keys g x).mp hxg)
    obtain ⟨old, hold⟩ := h.fixed x line c (by simpa using hi) hg
    exact hx.2 (by simp [Forest.mem_keys, hold])
  · intro y hy hne
    by_contra hd
    exact hx.2 (h.apart x hxg y (keys_of_covers hc y hy) hne (by simpa using hd))

theorem deep_sound_of_covers (b : Forest) (l g : Forest) (h : Within u l g) (hc : Covers b g) :
    Deep u (ScopeSound u) b l := by
  induction b generalizing l g with
  | nil => trivial
  | cons key line children rest ihc ihr =>
    obtain ⟨⟨line', c, hg, hcov, hkeys⟩, hcr⟩ := hc
    refine ⟨?_, ihr l g h hcr⟩
    have hin := h.get hg
    have hboth := And.intro (scopeSound_of_covers (hin [] c rfl) hcov) (ihc _ c hin hcov)
    cases hl : l.get key with
    | none => simpa [scopeAt, Forest.atPath, hl] using hboth
    | some n =>
      obtain ⟨old, lc⟩ := n
      by_cases hi : inert u key = true
      · obtain ⟨old', hold⟩ := (h [] g rfl).fixed key line' c hi hg
        have hsame : lc = c := by
          have heq : l.get key = some (old', c) := hold
          rw [hl] at heq
          cases heq
          rfl
        simp only [hi, if_true, hsame]
        exact ⟨hcov, hkeys⟩
      · simp only [hi, Bool.false_eq_true, if_false]
        simpa [scopeAt, Forest.atPath, hl] using hboth

/-! ## When a restore converges -/

/-- The device's configuration after the commands of the comparison with the backup. -/
def restored (u : Unicode) (opens : List Str → Bool) (b l : Forest) : Forest :=
  (execAll u opens (_cisco_diff u b l [] .empty).1 ⟨l, []⟩).root

theorem within_restored (opens : List Str → Bool) {b l : Forest} (hb : b.Every (Plain u)) (hl : l.Every (Plain u)) :
    Within u l (restored u opens b l) := by
  have hsafe := safe_diff_of_loop .empty hl (safe_loop b hb [] l hl ⟨.empty, none⟩)
  exact execAll_everywhere (stable_kept u l) opens _ hsafe ⟨l, []⟩ (by simp) (within_refl hl)

/-- The second comparison is empty exactly when the additions are sound and
every live-only line leaves, in every scope. -/
theorem restored_is_empty_iff {opens : List Str → Bool} {b l : Forest} (hb : b.Every (Plain u)) (hl : l.Every (Plain u))
    (hopens : Opens opens [] b l) :
    (_cisco_diff u b (restored u opens b l) [] .empty).2.is_empty = true ↔
      Scopes u (ScopeSound u) b l ∧ Scopes u (ScopeClears u) b l := by
  have hwithin := within_restored opens hb hl
  rw [is_empty_iff_sameTree hb hwithin.noChains]
  have hrun : Scopes u (ScopeSound u) b l →
      (SameTree b (restored u opens b l) ↔ Scopes u (ScopeClears u) b l) := by
    intro hsound
    obtain ⟨g, hg, hiff⟩ := restores .empty hb hl hopens hsound
    have hroot : restored u opens b l = g := congrArg Device.root (hg l rfl)
    rwa [hroot]
  constructor
  · intro hsame
    have hsound : Scopes u (ScopeSound u) b l :=
      ⟨scopeSound_of_covers (hwithin [] _ rfl) hsame.1, deep_sound_of_covers b l _ hwithin hsame.1⟩
    exact ⟨hsound, (hrun hsound).mp hsame⟩
  · exact fun h => (hrun h.1).mpr h.2

end CiscoKept
