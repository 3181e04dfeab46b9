import Ngcorion.Backup.FortiScope

/-!
# Clearing FortiOS scopes

The commands for what only the live device has: settings are unset, entries
are deleted, and a `config` scope is emptied in place, since a device keeps the
scope itself.
-/
namespace FortiClear

open Text ConfigTree FortiOS FortiDevice FortiScope

/-- No setting and no entry at any depth: only `config` scopes remain. -/
def Blank : Forest → Prop
  | .nil => True
  | .cons _ line children rest => verb line = lit "config" ∧ Blank children ∧ Blank rest

theorem blank_iff (f : Forest) :
    Blank f ↔ ∀ e ∈ f.entries, verb e.2.1 = lit "config" ∧ Blank e.2.2 := by
  induction f with
  | nil => simp [Blank]
  | cons key line children rest _ ih => simp [Blank, ih, and_assoc]

/-- A scope needs no clearing exactly when it is blank. -/
theorem clear_eq_nil {c : Forest} (hc : Good c) : _forti_clear c = [] ↔ Blank c := by
  induction c with
  | nil => simp [_forti_clear, Blank]
  | cons key line children rest ihc ihr =>
    have hr := ihr hc.2.2.2
    have hv := verb_ne
    cases hc.2.1 with
    | set k v => simp [_forti_clear, Blank, hv.2.1.symm]
    | edit n => simp [_forti_clear, Blank, hv, hv.2.2.symm]
    | config w hw =>
      have hcc := ihc hc.2.2.1
      by_cases hb : _forti_clear children = []
      · simp [_forti_clear, Blank, hv, hb, hr, hcc.mp hb]
      · have hnb : ¬ Blank children := fun h => hb (hcc.mpr h)
        simp [_forti_clear, Blank, hv, hb, hnb]

theorem liveLoop_nil (title : Str) (c : Forest) (m : Marks) :
    (liveLoop title .nil c m).1 = _forti_clear c := by
  induction c generalizing m with
  | nil => rfl
  | cons key line children rest _ ihr =>
    simp only [liveLoop, _forti_clear, ihr, Forest.keys_nil, List.not_mem_nil, if_false]
    congr 1
    split_ifs <;> rfl

/-- What is left of the live-only entries of a scope: blank `config` scopes. -/
def Remains (g : Forest) (key : Str) : Prop :=
  ∀ line children, g.get key = some (line, children) → verb line = lit "config" ∧ Blank children

/-- What the live-only loop does to a scope that still has those entries: it
keeps all others, and leaves of its own at most blank `config` scopes. -/
structure Cleared (backup live f g : Forest) : Prop where
  good : Good g
  other : ∀ key, key ∈ backup.keys ∨ key ∉ live.keys → g.get key = f.get key
  gone : ∀ key ∈ live.keys, key ∉ backup.keys → Remains g key
  order : editKeys g = (editKeys f).filter (fun k => k ∈ backup.keys ∨ k ∉ live.keys)

theorem sub_of_get {f : Forest} {key line : Str} {c : Forest} (h : f.get key = some (line, c)) : sub f key = c := by
  simp [sub, h]

theorem argument_key {key line : Str} {c : Forest} (h : Form key line c) (hv : verb line ≠ lit "config") :
    ∃ name, argument key = some name ∧ startsWord name = true := by
  cases h with
  | set k v hk hw => exact ⟨k, argument_set k (startsWord_of_isKey k hk), startsWord_of_isKey k hk⟩
  | edit n hn => exact ⟨n, argument_edit n (startsWord_of_oneWord n hn), startsWord_of_oneWord n hn⟩
  | config w hw => simp at hv

theorem runs_unset_form {key line : Str} {c : Forest} (h : Form key line c) (hv : verb line = lit "set") (f : Forest) :
    Runs [unsetCommand key] f (f.erase key) := by
  cases h with
  | set k v hk hw =>
    rw [unsetCommand, argument_set k (startsWord_of_isKey k hk)]
    exact runs_unset k hk f
  | edit n => simp [verb_ne] at hv
  | config w => simp [verb_ne] at hv

theorem runs_delete_form {key line : Str} {c : Forest} (h : Form key line c) (hv : verb line = lit "edit") (f : Forest)
    (hm : key ∈ f.keys) : Runs [deleteCommand line] f (f.erase key) := by
  cases h with
  | set k v => simp [verb_ne.1.symm] at hv
  | edit n hn =>
    rw [deleteCommand, argument_edit n (startsWord_of_oneWord n hn)]
    exact runs_delete n hn f hm
  | config w => simp [verb_ne] at hv

theorem verb_config_of_form {key line : Str} {c : Forest} (h : Form key line c) (hs : verb line ≠ lit "set")
    (he : verb line ≠ lit "edit") : verb line = lit "config" := by
  cases h with
  | set k v => simp at hs
  | edit n => simp at he
  | config w => simp

theorem not_isEditKey {key line : Str} {c : Forest} (h : Form key line c) (he : verb line ≠ lit "edit") :
    isEditKey key = false := by
  cases h with
  | set k v => simp
  | edit n => simp at he
  | config w => simp

/-- One live-only entry dealt with, and then the others. -/
theorem Cleared.cons {backup rest f f' g : Forest} {key line : Str} {children : Forest} (hb : key ∉ backup.keys)
    (hr : key ∉ rest.keys) (hget : ∀ k, k ≠ key → f'.get k = f.get k) (hgone : Remains f' key)
    (horder : editKeys f' = (editKeys f).filter (· ≠ key)) (h : Cleared backup rest f' g) :
    Cleared backup (.cons key line children rest) f g where
  good := h.good
  other := by
    intro k hk
    have hne : k ≠ key := by
      rintro rfl
      simp [hb] at hk
    rw [h.other k (by simpa [hne] using hk), hget k hne]
  gone := by
    intro k hk hkb
    by_cases he : k = key
    · subst he
      intro l c hg
      rw [h.other k (Or.inr hr)] at hg
      exact hgone l c hg
    · exact h.gone k (by simpa [he] using hk) hkb
  order := by
    rw [h.order, horder, List.filter_filter]
    refine List.filter_congr (fun k _ => ?_)
    by_cases he : k = key
    · subst he
      simp [hb]
    · simp [he]

theorem Cleared.keep {backup rest f g : Forest} {key line : Str} {children : Forest} (hb : key ∈ backup.keys)
    (h : Cleared backup rest f g) : Cleared backup (.cons key line children rest) f g where
  good := h.good
  other := by
    intro k hk
    refine h.other k ?_
    rcases hk with hk | hk
    · exact Or.inl hk
    · exact Or.inr (fun hm => hk (by simp [hm]))
  gone := by
    intro k hk hkb
    have hne : k ≠ key := fun he => hkb (he ▸ hb)
    exact h.gone k (by simpa [hne] using hk) hkb
  order := by
    rw [h.order]
    refine List.filter_congr (fun k _ => ?_)
    by_cases he : k = key
    · subst he
      simp [hb]
    · simp [he]

/-- A scope that has been cleared against an empty backup is blank. -/
theorem Cleared.blank {c g : Forest} (h : Cleared .nil c c g) : Blank g := by
  rw [blank_iff]
  rintro ⟨key, line, children⟩ hm
  have hg := (Forest.get_eq_some g h.good.nodup key line children).mpr hm
  by_cases hk : key ∈ c.keys
  · exact h.gone key hk (by simp) line children hg
  · rw [h.other key (Or.inr hk), (Forest.get_eq_none c key).mpr hk] at hg
    simp at hg

theorem rest_get {backup f f' rest : Forest} {key : Str} (hr : key ∉ rest.keys)
    (hget : ∀ k, k ≠ key → f'.get k = f.get k)
    (hlive : ∀ e ∈ rest.entries, e.1 ∉ backup.keys → f.get e.1 = some e.2) :
    ∀ e ∈ rest.entries, e.1 ∉ backup.keys → f'.get e.1 = some e.2 := by
  intro e he hb
  have hne : e.1 ≠ key := fun h => hr (h ▸ List.mem_map_of_mem he)
  rw [hget e.1 hne, hlive e he hb]

/-- The loop over the live entries removes what the backup does not have. -/
theorem runs_live (l : Forest) (hl : Good l) (title : Str) (backup : Forest) (m : Marks) (f : Forest) (hf : Good f)
    (hlive : ∀ e ∈ l.entries, e.1 ∉ backup.keys → f.get e.1 = some e.2) :
    ∃ g, Runs (liveLoop title backup l m).1 f g ∧ Cleared backup l f g := by
  induction l generalizing title backup m f with
  | nil => exact ⟨f, Runs.nil f, hf, fun _ _ => rfl, by simp, by simp⟩
  | cons key line children rest ihc ihr =>
    obtain ⟨hr, hform, hgc, hgr⟩ := hl
    have hrest : ∀ e ∈ rest.entries, e.1 ∉ backup.keys → f.get e.1 = some e.2 :=
      fun e he => hlive e (by simp [he])
    simp only [liveLoop]
    by_cases hb : key ∈ backup.keys
    · simp only [hb, if_true, List.nil_append]
      obtain ⟨g, hrun, hg⟩ := ihr hgr title backup m f hf hrest
      exact ⟨g, hrun, hg.keep hb⟩
    have hfk : f.get key = some (line, children) := hlive (key, line, children) (by simp) hb
    have hmem : key ∈ f.keys := by
      by_contra hn
      rw [(Forest.get_eq_none f key).mpr hn] at hfk
      simp at hfk
    have herase : ∀ k, k ≠ key → (f.erase key).get k = f.get k := by
      intro k hk
      rw [Forest.get_erase, if_neg (Ne.symm hk)]
    have hgone : Remains (f.erase key) key := by
      intro l c h
      simp [Forest.get_erase] at h
    simp only [hb, if_false]
    by_cases hs : verb line = lit "set"
    · simp only [hs, if_true]
      obtain ⟨g, hrun, hg⟩ := ihr hgr title backup _ (f.erase key) (hf.erase key) (rest_get hr herase hrest)
      exact ⟨g, (runs_unset_form hform hs f).append hrun, hg.cons hb hr herase hgone (editKeys_erase f key)⟩
    simp only [hs, if_false]
    by_cases he : verb line = lit "edit"
    · simp only [he, if_true]
      obtain ⟨g, hrun, hg⟩ := ihr hgr title backup _ (f.erase key) (hf.erase key) (rest_get hr herase hrest)
      exact ⟨g, (runs_delete_form hform he f hmem).append hrun, hg.cons hb hr herase hgone (editKeys_erase f key)⟩
    simp only [he, if_false]
    have hcfg := verb_config_of_form hform hs he
    have hnot : ∀ f' : Forest, editKeys f' = (editKeys f').filter (· ≠ key) := by
      intro f'
      refine (List.filter_eq_self.mpr (fun k hk => ?_)).symm
      have hek := (List.mem_filter.mp hk).2
      have hne : k ≠ key := by
        rintro rfl
        rw [not_isEditKey hform he] at hek
        simp at hek
      simpa using hne
    by_cases hc : _forti_clear children = []
    · simp only [hc, if_true, List.nil_append]
      obtain ⟨g, hrun, hg⟩ := ihr hgr title backup m f hf hrest
      have hblank : Remains f key := by
        intro l c h
        rw [hfk] at h
        cases h
        exact ⟨hcfg, (clear_eq_nil hgc).mp hc⟩
      exact ⟨g, hrun, hg.cons hb hr (fun _ _ => rfl) hblank (hnot f)⟩
    · simp only [hc, if_false]
      obtain ⟨g', hrun', hg'⟩ := ihc hgc title .nil m children hgc
        (fun e he _ => (Forest.get_eq_some children hgc.nodup e.1 e.2.1 e.2.2).mpr he)
      rw [liveLoop_nil] at hrun'
      have hsub : sub f key = children := sub_of_get hfk
      have hclose : closer line = lit "end" := by simp [closer, he]
      have hset : ∀ k, k ≠ key → (f.set key line g').get k = f.get k := by
        intro k hk
        rw [Forest.get_set, if_neg (Ne.symm hk)]
      have hleft : Remains (f.set key line g') key := by
        intro l c h
        rw [Forest.get_set, if_pos rfl] at h
        cases h
        exact ⟨hcfg, hg'.blank⟩
      have hform' : Form key line g' := by
        cases hform with
        | set k v => simp at hs
        | edit n => simp at he
        | config w hw => exact .config w hw g'
      have hstep := runs_form key line children hform hs (_forti_clear children) f g' (hsub ▸ hrun')
      rw [hclose] at hstep
      have hkeys : editKeys (f.set key line g') = (editKeys f).filter (· ≠ key) := by
        rw [editKeys_set, if_pos hmem, ← hnot f]
      obtain ⟨g, hrun, hg⟩ := ihr hgr title backup _ (f.set key line g') (hf.set hform' hg'.good)
        (rest_get hr hset hrest)
      exact ⟨g, hstep.append hrun, hg.cons hb hr hset hleft hkeys⟩

end FortiClear
