import Ngcorion.Backup.FortiClear
import Ngcorion.Backup.FortiParse

/-!
# Restoring a FortiOS configuration

The commands of `_forti_diff`, run on a device that holds the live
configuration, leave a configuration on which `_forti_diff` has nothing more
to do.
-/
namespace FortiRestore

open Text ConfigTree FortiOS FortiDevice FortiScope FortiClear FortiParse

theorem runs_nil_eq {f g : Forest} (h : Runs [] f g) : f = g := by
  simpa [execAll] using h []

/-! ## What a restored scope is -/

/-- A value that may stand for another: the same line, or two encrypted values. -/
def SameLine (line line' : Str) : Prop :=
  line' = line ∨ verb line = lit "set" ∧ _is_enc line = true ∧ _is_enc line' = true

/-- What the backup does not have: at most `config` scopes without settings. -/
def Extra (b g : Forest) : Prop := ∀ key, key ∉ b.keys → Remains g key

/-- Every entry of the backup is on the device, with its value or its children. -/
def Agrees : Forest → Forest → Prop
  | .nil, _ => True
  | .cons key line children rest, g =>
    (∃ line' children', g.get key = some (line', children') ∧ SameLine line line' ∧
      (verb line ≠ lit "set" → Agrees children children' ∧ Extra children children' ∧
        (isOrdered [line] = true → editKeys children' = editKeys children))) ∧ Agrees rest g

/-- The device has the backup: the same tree up to encrypted values, `config`
scopes without settings, and the entry order of tables that are not ordered. -/
structure Restored (ordered : Bool) (b g : Forest) : Prop where
  agrees : Agrees b g
  extra : Extra b g
  order : ordered = true → editKeys g = editKeys b

theorem agrees_congr {b g g' : Forest} (hget : ∀ key ∈ b.keys, g'.get key = g.get key) (h : Agrees b g) :
    Agrees b g' := by
  induction b with
  | nil => trivial
  | cons key line children rest _ ih =>
    obtain ⟨⟨line', children', hg, hline, hc⟩, hr⟩ := h
    refine ⟨⟨line', children', ?_, hline, hc⟩, ih (fun k hk => hget k (by simp [hk])) hr⟩
    rw [hget key (by simp), hg]

theorem agrees_keys {b g : Forest} (h : Agrees b g) : ∀ key ∈ b.keys, key ∈ g.keys := by
  induction b with
  | nil => simp
  | cons key line children rest _ ih =>
    obtain ⟨⟨line', children', hg, -⟩, hr⟩ := h
    have hk : key ∈ g.keys := by
      by_contra hn
      rw [(Forest.get_eq_none g key).mpr hn] at hg
      simp at hg
    intro k hm
    rcases List.mem_cons.mp hm with rfl | hm
    · exact hk
    · exact ih hr k hm

@[simp] theorem isOrdered_inside (path : List Str) (line : Str) : isOrdered (path ++ [line]) = isOrdered [line] := by
  simp [isOrdered]

/-- An exact copy of the backup's children is a restored scope. -/
theorem agrees_self {b g : Forest} (hb : Good b) (hget : ∀ e ∈ b.entries, g.get e.1 = some e.2) : Agrees b g := by
  induction b generalizing g with
  | nil => trivial
  | cons key line children rest ihc ihr =>
    obtain ⟨-, -, hgc, hgr⟩ := hb
    have hself : ∀ e ∈ children.entries, children.get e.1 = some e.2 :=
      fun e he => (Forest.get_eq_some children hgc.nodup e.1 e.2.1 e.2.2).mpr he
    refine ⟨⟨line, children, hget (key, line, children) (by simp), Or.inl rfl, fun _ => ⟨ihc hgc hself, ?_, ?_⟩⟩, ?_⟩
    · intro k hk l c hg
      rw [(Forest.get_eq_none children k).mpr hk] at hg
      simp at hg
    · exact fun _ => rfl
    · exact ihr hgr (fun e he => hget e (by simp [he]))

/-! ## The entries of the backup -/

/-- What the loop over the backup's entries does to a scope that still has the
live entries under those keys. -/
structure Filled (b l f g : Forest) : Prop where
  good : Good g
  other : ∀ key, key ∉ b.keys → g.get key = f.get key
  agrees : Agrees b g
  order : editKeys g = editKeys f ++ (editKeys b).filter (· ∉ l.keys)

/-- The names in the order in which they stand after the first two loops. -/
theorem currentNames_eq {b l g : Forest} (hb : Good b)
    (hg : editKeys g = (editKeys l).filter (· ∈ b.keys) ++ (editKeys b).filter (· ∉ l.keys)) :
    currentNames b l = editNames g := by
  have hnames : (editNames b).filter (fun n => lit "edit " ++ n ∉ l.keys) =
      ((editKeys b).filter (· ∉ l.keys)).map (fun k => (argument k).getD []) := by
    have hb' := oneWord_of_mem_editNames hb
    rw [editKeys_eq hb, List.filter_map, List.map_map]
    conv_lhs => rw [← List.map_id ((editNames b).filter _)]
    refine List.map_inj_left.mpr (fun n hn => ?_)
    have hw := hb' n (List.mem_filter.mp hn).1
    simp [argument_edit n (startsWord_of_oneWord n hw)]
  have hlive : l.keys.filter (fun k => isEditKey k && k ∈ b.keys) = (editKeys l).filter (· ∈ b.keys) := by
    rw [editKeys, List.filter_filter]
    exact List.filter_congr (fun k _ => Bool.and_comm _ _)
  have hgn : editNames g = (editKeys g).map (fun k => (argument k).getD []) := rfl
  rw [currentNames, hnames, hlive, hgn, hg, List.map_append]

theorem editKeys_perm {b l g : Forest} (hb : Good b) (hg : Good g)
    (horder : editKeys g = (editKeys l).filter (· ∈ b.keys) ++ (editKeys b).filter (· ∉ l.keys)) :
    (editKeys g).Perm (editKeys b) := by
  refine (List.perm_ext_iff_of_nodup (hg.nodup.filter _) (hb.nodup.filter _)).mpr (fun k => ?_)
  change k ∈ editKeys g ↔ k ∈ editKeys b
  rw [horder]
  simp only [List.mem_append, List.mem_filter, decide_eq_true_eq, editKeys]
  by_cases hl : k ∈ l.keys
  · simp [hl, and_comm]
  · simp [hl]

theorem editNames_perm {b g : Forest} (h : (editKeys g).Perm (editKeys b)) : (editNames g).Perm (editNames b) :=
  h.map (fun k => (argument k).getD [])

/-- The three loops on one scope, given what the first does. -/
theorem runs_diff {b l : Forest} (hb : Good b) (hl : Good l) (path : List Str) (diff : ConfigDiff)
    (hfirst : ∃ g, Runs (backupLoop path b l ⟨diff, none⟩).1 l g ∧ Filled b l l g) :
    ∃ g, Runs (_forti_diff b l path diff).1 l g ∧ Good g ∧ Restored (isOrdered path) b g := by
  obtain ⟨g₁, hrun₁, h₁⟩ := hfirst
  have hlive : ∀ e ∈ l.entries, e.1 ∉ b.keys → g₁.get e.1 = some e.2 := by
    intro e he hk
    rw [h₁.other e.1 hk]
    exact (Forest.get_eq_some l hl.nodup e.1 e.2.1 e.2.2).mpr he
  obtain ⟨g₂, hrun₂, h₂⟩ := runs_live l hl (titleOf path) b (backupLoop path b l ⟨diff, none⟩).2 g₁ h₁.good hlive
  have hagrees : Agrees b g₂ := agrees_congr (fun key hk => h₂.other key (Or.inl hk)) h₁.agrees
  have hextra : Extra b g₂ := by
    intro key hk line c hg
    by_cases hm : key ∈ l.keys
    · exact h₂.gone key hm hk line c hg
    · rw [h₂.other key (Or.inr hm), h₁.other key hk, (Forest.get_eq_none l key).mpr hm] at hg
      simp at hg
  have horder : editKeys g₂ = (editKeys l).filter (· ∈ b.keys) ++ (editKeys b).filter (· ∉ l.keys) := by
    rw [h₂.order, h₁.order, List.filter_append, List.filter_filter]
    congr 1
    · refine List.filter_congr (fun k hk => ?_)
      simp [(List.mem_filter.mp hk).1]
    · refine List.filter_congr (fun k hk => ?_)
      simp [(List.mem_filter.mp hk).1]
  have hruns := hrun₁.append hrun₂
  by_cases ho : isOrdered path = true
  · have hperm := editNames_perm (editKeys_perm hb h₂.good horder)
    have hcur := currentNames_eq hb horder
    obtain ⟨g₃, hrun₃, hp, hn⟩ := runs_moves (editNames b) g₂ h₂.good [] (editNames g₂) rfl hperm
    have hg₃ := h₂.good.perm hp
    have hget := get_perm h₂.good hp
    have hmoves : _forti_moves (editNames b) (currentNames b l) = movesFrom 0 (editNames b) (editNames g₂) := by
      rw [_forti_moves, hcur, List.filter_eq_self.mpr]
      intro n hn
      simpa using hperm.mem_iff.mp hn
    refine ⟨g₃, ?_, hg₃, agrees_congr (fun key _ => hget key) hagrees, ?_, ?_⟩
    · refine hruns.append ?_
      simpa only [orderStep, ho, if_true, hmoves, List.length_nil, List.nil_append] using hrun₃
    · intro key hk line c hg
      exact hextra key hk line c (by rw [← hget key, hg])
    · intro _
      rw [editKeys_eq hg₃, editKeys_eq hb, hn, List.nil_append]
  · refine ⟨g₂, ?_, h₂.good, hagrees, hextra, fun h => absurd h ho⟩
    simpa [_forti_diff, orderStep, ho] using hruns

/-- One entry of the backup dealt with, and then the others. -/
theorem Filled.cons {rest l f f' g : Forest} {key line line' : Str} {children children' : Forest}
    (hr : key ∉ rest.keys) (hget : ∀ k, k ≠ key → f'.get k = f.get k)
    (hkey : f'.get key = some (line', children')) (hline : SameLine line line')
    (hscope : verb line ≠ lit "set" → Restored (isOrdered [line]) children children')
    (horder : editKeys f' = editKeys f ++ [key].filter (fun k => isEditKey k && k ∉ l.keys))
    (h : Filled rest l f' g) : Filled (.cons key line children rest) l f g where
  good := h.good
  other := by
    intro k hk
    simp only [Forest.keys_cons, List.mem_cons, not_or] at hk
    rw [h.other k hk.2, hget k hk.1]
  agrees := by
    refine ⟨⟨line', children', by rw [h.other key hr, hkey], hline, fun hv => ?_⟩, h.agrees⟩
    exact ⟨(hscope hv).agrees, (hscope hv).extra, (hscope hv).order⟩
  order := by
    have hcons : (editKeys (.cons key line children rest)).filter (· ∉ l.keys) =
        [key].filter (fun k => isEditKey k && k ∉ l.keys) ++ (editKeys rest).filter (· ∉ l.keys) := by
      simp only [editKeys, Forest.keys_cons, List.filter_filter]
      rw [← List.singleton_append, List.filter_append]
      congr 1
      · exact List.filter_congr (fun k _ => Bool.and_comm _ _)
    rw [h.order, horder, hcons, List.append_assoc]

theorem form_children {key line : Str} {c c' : Forest} (h : Form key line c) (hv : verb line ≠ lit "set") :
    Form key line c' := by
  cases h with
  | set k v => simp at hv
  | edit n hn => exact .edit n hn c'
  | config w hw => exact .config w hw c'

theorem mem_keys_of_get {f : Forest} {key : Str} {v : Str × Forest} (h : f.get key = some v) : key ∈ f.keys := by
  by_contra hn
  rw [(Forest.get_eq_none f key).mpr hn] at h
  simp at h

theorem runs_set_form {key line : Str} {c : Forest} (h : Form key line c) (hv : verb line = lit "set") (f : Forest) :
    c = .nil ∧ Runs [line] f (f.set key line .nil) := by
  cases h with
  | set k v hk hw => exact ⟨rfl, runs_set k v hk hw f⟩
  | edit n => simp [verb_ne] at hv
  | config w => simp [verb_ne] at hv

theorem get_set_ne (f : Forest) (key line : Str) (c : Forest) : ∀ k, k ≠ key → (f.set key line c).get k = f.get k := by
  intro k hk
  rw [Forest.get_set, if_neg (Ne.symm hk)]

/-- The entries under the keys of the rest are as before. -/
theorem rest_live {rest l f f' : Forest} {key : Str} (hr : key ∉ rest.keys)
    (hget : ∀ k, k ≠ key → f'.get k = f.get k) (hlive : ∀ k ∈ rest.keys, f.get k = l.get k) :
    ∀ k ∈ rest.keys, f'.get k = l.get k := by
  intro k hk
  have hne : k ≠ key := fun h => hr (h ▸ hk)
  rw [hget k hne, hlive k hk]

theorem order_unchanged {f l : Forest} {key : Str} (hl : key ∈ l.keys) :
    editKeys f = editKeys f ++ [key].filter (fun k => isEditKey k && k ∉ l.keys) := by
  simp [hl]

theorem order_set {f l : Forest} {key line : Str} {c : Forest} (hfl : f.get key = l.get key) :
    editKeys (f.set key line c) = editKeys f ++ [key].filter (fun k => isEditKey k && k ∉ l.keys) := by
  rw [editKeys_set]
  have hiff : key ∈ f.keys ↔ key ∈ l.keys := by
    rw [← not_iff_not, ← Forest.get_eq_none, ← Forest.get_eq_none, hfl]
  by_cases hk : key ∈ l.keys
  · simp [hk, hiff]
  · simp only [hiff, hk, if_false, List.filter_cons, List.filter_nil]
    simp

/-- A scope that both sides have is compared as a whole, and entered if it differs. -/
theorem backupLoop_scope (path : List Str) {key line old : Str} {children liveChildren rest l : Forest} (m : Marks)
    (hv : verb line ≠ lit "set") (hg : l.get key = some (old, liveChildren)) :
    backupLoop path (.cons key line children rest) l m =
      let inner := _forti_diff children liveChildren (path ++ [line]) m.diff
      let later := backupLoop path rest l ⟨inner.2, m.current⟩
      ((if inner.1 = [] then [] else line :: (inner.1 ++ [closer line])) ++ later.1, later.2) := by
  simp only [backupLoop, hv, hg, if_false]
  rfl

/-- The loop over the backup's entries brings each of them to the device. -/
theorem runs_backup (b : Forest) (hb : Good b) (path : List Str) (l : Forest) (hl : Good l) (m : Marks) (f : Forest)
    (hf : Good f) (hfl : ∀ key ∈ b.keys, f.get key = l.get key) :
    ∃ g, Runs (backupLoop path b l m).1 f g ∧ Filled b l f g := by
  induction b generalizing path l m f with
  | nil => exact ⟨f, Runs.nil f, hf, fun _ _ => rfl, trivial, by simp [editKeys]⟩
  | cons key line children rest ihc ihr =>
    obtain ⟨hr, hform, hgc, hgr⟩ := hb
    have hkey : f.get key = l.get key := hfl key (by simp)
    have hrest : ∀ k ∈ rest.keys, f.get k = l.get k := fun k hk => hfl k (by simp [hk])
    have hset := fun c => get_set_ne f key line c
    have hhere : ∀ c, (f.set key line c).get key = some (line, c) := fun c => by rw [Forest.get_set, if_pos rfl]
    by_cases hv : verb line = lit "set"
    · simp only [backupLoop, hv, if_true]
      obtain ⟨hnil, hrunset⟩ := runs_set_form hform hv f
      have hgood := hf.set (hnil ▸ hform) (show Good .nil from trivial)
      have hrestset := rest_live hr (hset .nil) hrest
      cases hg : l.get key with
      | none =>
        obtain ⟨g, hrun, h⟩ := ihr hgr path l hl _ (f.set key line .nil) hgood hrestset
        exact ⟨g, hrunset.append hrun,
          h.cons hr (hset .nil) (hhere .nil) (Or.inl rfl) (fun hn => absurd hv hn) (order_set hkey)⟩
      | some v =>
        obtain ⟨old, oldChildren⟩ := v
        rw [hg] at hkey
        have hmem := mem_keys_of_get hg
        by_cases hold : old = line
        · simp only [hold, if_true, List.nil_append]
          obtain ⟨g, hrun, h⟩ := ihr hgr path l hl m f hf hrest
          exact ⟨g, hrun, h.cons hr (fun _ _ => rfl) hkey (Or.inl hold) (fun hn => absurd hv hn)
            (order_unchanged hmem)⟩
        · by_cases henc : (_is_enc line && _is_enc old) = true
          · simp only [hold, henc, if_true, if_false, List.nil_append]
            obtain ⟨g, hrun, h⟩ := ihr hgr path l hl _ f hf hrest
            have hsame : SameLine line old := Or.inr ⟨hv, by simpa using henc⟩
            exact ⟨g, hrun, h.cons hr (fun _ _ => rfl) hkey hsame (fun hn => absurd hv hn) (order_unchanged hmem)⟩
          · simp only [hold, henc, if_false]
            obtain ⟨g, hrun, h⟩ := ihr hgr path l hl _ (f.set key line .nil) hgood hrestset
            exact ⟨g, hrunset.append hrun, h.cons hr (hset .nil) (hhere .nil) (Or.inl rfl)
              (fun hn => absurd hv hn) (order_set (hkey.trans hg.symm))⟩
    · cases hg : l.get key with
      | none =>
        simp only [backupLoop, hv, hg, if_false]
        have hmem : key ∉ f.keys := (Forest.get_eq_none f key).mp (hkey.trans hg)
        have hbody : Runs (_forti_body children) (sub f key) children := by
          rw [sub_of_not_mem f key hmem]
          exact runs_body children hgc
        have hstep := runs_form key line children hform hv (_forti_body children) f children hbody
        obtain ⟨g, hrun, h⟩ := ihr hgr path l hl _ (f.set key line children) (hf.set hform hgc)
          (rest_live hr (hset children) hrest)
        have hself : Restored (isOrdered [line]) children children := by
          refine ⟨agrees_self hgc (fun e he => ?_), fun k hk l c hc => ?_, fun _ => rfl⟩
          · exact (Forest.get_eq_some children hgc.nodup e.1 e.2.1 e.2.2).mpr he
          · rw [(Forest.get_eq_none children k).mpr hk] at hc
            simp at hc
        exact ⟨g, hstep.append hrun, h.cons hr (hset children) (hhere children) (Or.inl rfl) (fun _ => hself)
          (order_set hkey)⟩
      | some v =>
        obtain ⟨old, liveChildren⟩ := v
        obtain ⟨hlform, hlgood⟩ := hl.get hg
        have hmem := mem_keys_of_get hg
        have hold : old = line := by
          have hv' : verb old ≠ lit "set" := fun h => hv ((form_same_kind hform hlform).mpr h)
          rw [form_scope hlform hv', form_scope hform hv]
        subst hold
        have hfirst := ihc hgc (path ++ [old]) liveChildren hlgood ⟨m.diff, none⟩ liveChildren hlgood
          (fun _ _ => rfl)
        obtain ⟨g', hrun', hgood', hres⟩ := runs_diff hgc hlgood (path ++ [old]) m.diff hfirst
        rw [isOrdered_inside] at hres
        have hsub : sub f key = liveChildren := sub_of_get (hkey.trans hg)
        rw [backupLoop_scope path m hv hg]
        by_cases hinner : (_forti_diff children liveChildren (path ++ [old]) m.diff).1 = []
        · have hnil : liveChildren = g' := runs_nil_eq (hinner ▸ hrun')
          subst hnil
          obtain ⟨g, hrun, h⟩ := ihr hgr path l hl _ f hf hrest
          refine ⟨g, ?_, h.cons hr (fun _ _ => rfl) (hkey.trans hg) (Or.inl rfl) (fun _ => hres)
            (order_unchanged hmem)⟩
          simp only [hinner, if_true, List.nil_append]
          exact hrun
        · obtain ⟨g, hrun, h⟩ := ihr hgr path l hl _ (f.set key old g')
            (hf.set (form_children hform hv) hgood') (rest_live hr (hset g') hrest)
          have hstep := runs_form key old children hform hv _ f g' (by rw [hsub]; exact hrun')
          refine ⟨g, ?_, h.cons hr (hset g') (hhere g') (Or.inl rfl) (fun _ => hres) (order_set hkey)⟩
          simp only [hinner, if_false]
          exact hstep.append hrun

/-- The commands of a comparison restore the live tree to the backup. -/
theorem runs_forti_diff {b l : Forest} (hb : Good b) (hl : Good l) (path : List Str) (diff : ConfigDiff) :
    ∃ g, Runs (_forti_diff b l path diff).1 l g ∧ Good g ∧ Restored (isOrdered path) b g :=
  runs_diff hb hl path diff (runs_backup b hb path l hl ⟨diff, none⟩ l hl (fun _ _ => rfl))

/-! ## Nothing is left to do on a restored scope -/

/-- No line was added to a section; only skipped values may have been noted. -/
def Quiet (m m' : Marks) : Prop := m'.diff.sections = m.diff.sections ∧ m'.current = m.current

theorem liveLoop_restored (l : Forest) (hl : Good l) (title : Str) (b : Forest) (m : Marks)
    (h : ∀ e ∈ l.entries, e.1 ∉ b.keys → verb e.2.1 = lit "config" ∧ Blank e.2.2) :
    liveLoop title b l m = ([], m) := by
  induction l with
  | nil => rfl
  | cons key line children rest _ ihr =>
    obtain ⟨-, -, hgc, hgr⟩ := hl
    have hrest := ihr hgr (fun e he => h e (by simp [he]))
    by_cases hb : key ∈ b.keys
    · simp [liveLoop, hb, hrest]
    · obtain ⟨hv, hblank⟩ := h (key, line, children) (by simp) hb
      simp only at hv hblank
      simp [liveLoop, hb, hv, verb_ne, (clear_eq_nil hgc).mpr hblank, hrest]

theorem movesFrom_self (desired before : List Str) : movesFrom before.length desired (before ++ desired) = [] := by
  induction desired generalizing before with
  | nil => rfl
  | cons name desired ih =>
    have hi := ih (before ++ [name])
    simp only [List.length_append, List.length_singleton, List.append_assoc, List.singleton_append] at hi
    simp [movesFrom, hi]

theorem orderStep_restored {b l : Forest} (hb : Good b) (path : List Str) (m : Marks)
    (h : isOrdered path = true → editKeys l = editKeys b) : orderStep path b l m = ([], m) := by
  by_cases ho : isOrdered path = true
  · have hkeys := h ho
    have hboth : ∀ k ∈ editKeys b, k ∈ b.keys ∧ k ∈ l.keys := by
      intro k hk
      exact ⟨(List.mem_filter.mp hk).1, (List.mem_filter.mp (hkeys ▸ hk)).1⟩
    have hkept : (editKeys l).filter (· ∈ b.keys) = editKeys l :=
      List.filter_eq_self.mpr (fun k hk => by simpa using (hboth k (hkeys ▸ hk)).1)
    have hnone : (editKeys b).filter (· ∉ l.keys) = [] :=
      List.filter_eq_nil_iff.mpr (fun k hk => by simpa using (hboth k hk).2)
    have hcur : currentNames b l = editNames b := by
      rw [currentNames_eq (g := l) hb (by rw [hkept, hnone, List.append_nil])]
      exact congrArg (List.map _) hkeys
    have hmoves : _forti_moves (editNames b) (currentNames b l) = [] := by
      rw [_forti_moves, hcur, List.filter_eq_self.mpr (fun n hn => by simpa using hn)]
      exact movesFrom_self (editNames b) []
    simp [orderStep, ho, hmoves]
  · simp [orderStep, ho]

theorem diff_restored {b l : Forest} (hb : Good b) (hl : Good l) (path : List Str) (diff : ConfigDiff)
    (h : Restored (isOrdered path) b l) (hcmds : (backupLoop path b l ⟨diff, none⟩).1 = [])
    (hquiet : Quiet ⟨diff, none⟩ (backupLoop path b l ⟨diff, none⟩).2) :
    (_forti_diff b l path diff).1 = [] ∧ (_forti_diff b l path diff).2.sections = diff.sections := by
  have hlive : ∀ e ∈ l.entries, e.1 ∉ b.keys → verb e.2.1 = lit "config" ∧ Blank e.2.2 := by
    intro e he hk
    exact h.extra e.1 hk e.2.1 e.2.2 ((Forest.get_eq_some l hl.nodup e.1 e.2.1 e.2.2).mpr he)
  simp only [_forti_diff, liveLoop_restored l hl _ b _ hlive, orderStep_restored hb path _ h.order, hcmds]
  exact ⟨rfl, hquiet.1⟩

theorem backupLoop_restored (b : Forest) (hb : Good b) (path : List Str) (l : Forest) (hl : Good l) (m : Marks)
    (h : Agrees b l) : (backupLoop path b l m).1 = [] ∧ Quiet m (backupLoop path b l m).2 := by
  induction b generalizing path l m with
  | nil => exact ⟨rfl, rfl, rfl⟩
  | cons key line children rest ihc ihr =>
    obtain ⟨-, -, hgc, hgr⟩ := hb
    obtain ⟨⟨line', children', hg, hsame, hscope⟩, hrest⟩ := h
    have hlater := ihr hgr path l hl
    by_cases hv : verb line = lit "set"
    · by_cases hline : line' = line
      · simpa [backupLoop, hv, hg, hline] using hlater m hrest
      · have henc : _is_enc line = true ∧ _is_enc line' = true := by
          rcases hsame with hsame | hsame
          · exact absurd hsame hline
          · exact hsame.2
        have hskip := fun text => hlater (skip text m) hrest
        simp only [backupLoop, hv, hg, hline, henc.1, henc.2, if_true, if_false, Bool.and_self, List.nil_append]
        exact ⟨(hskip _).1, (hskip _).2⟩
    · obtain ⟨hagrees, hextra, horder⟩ := hscope hv
      have hgc' := (hl.get hg).2
      have hfirst := ihc hgc (path ++ [line]) children' hgc' ⟨m.diff, none⟩ hagrees
      have hinner := diff_restored hgc hgc' (path ++ [line]) m.diff
        ⟨hagrees, hextra, by rwa [isOrdered_inside]⟩ hfirst.1 hfirst.2
      obtain ⟨hcmds, hquiet⟩ := hlater ⟨(_forti_diff children children' (path ++ [line]) m.diff).2, m.current⟩ hrest
      rw [backupLoop_scope path m hv hg]
      simp only [hinner.1, if_true, List.nil_append]
      exact ⟨hcmds, hquiet.1.trans hinner.2, hquiet.2⟩

/-- On a restored tree the comparison finds nothing. -/
theorem forti_diff_restored {b l : Forest} (hb : Good b) (hl : Good l) (path : List Str) (diff : ConfigDiff)
    (h : Restored (isOrdered path) b l) :
    (_forti_diff b l path diff).1 = [] ∧ (_forti_diff b l path diff).2.sections = diff.sections := by
  have hfirst := backupLoop_restored b hb path l hl ⟨diff, none⟩ h.agrees
  exact diff_restored hb hl path diff h hfirst.1 hfirst.2

/-! ## The restore -/

theorem is_empty_of_sections (d : ConfigDiff) (h : d.sections = []) : d.is_empty = true := by
  simp [ConfigDiff.is_empty, ConfigDiff.marks, h]

/-- The commands run to the end on the device and back to the top level, no
command is refused, and the configuration they leave is the backup, on which a
second comparison finds no command and no changed line. -/
theorem restore_converges (backup_text live_text : Str) (b l : Forest)
    (hb : parse_fortios backup_text = some b) (hl : parse_fortios live_text = some l)
    (hbr : linesWellRead b = true) (hlr : linesWellRead l = true) (diff : ConfigDiff) :
    ∃ l', execAll (_forti_diff b l [] diff).1 ⟨l, []⟩ = some ⟨l', []⟩ ∧
      (_forti_diff b l' [] .empty).1 = [] ∧ (_forti_diff b l' [] .empty).2.is_empty = true ∧
      Restored false b l' := by
  have hgb := good_of_parse hb hbr
  have hgl := good_of_parse hl hlr
  obtain ⟨l', hrun, hgood, hres⟩ := runs_forti_diff hgb hgl [] diff
  obtain ⟨hcmds, hsections⟩ := forti_diff_restored hgb hgood [] .empty hres
  exact ⟨l', hrun [], hcmds, is_empty_of_sections _ hsections, hres⟩

def policyBackup : Str :=
  lit "config firewall policy\nedit 1\nset action accept\nnext\nedit 2\nset action deny\nnext\nend"

def policyLive : Str :=
  lit "config firewall policy\nedit 2\nset action deny\nset nat enable\nnext\nedit 3\nset action accept\nnext\nend"

/-- A policy table with an entry missing, an entry too many and a setting too many. -/
theorem policyTable_converges : ∃ b l l', parse_fortios policyBackup = some b ∧ parse_fortios policyLive = some l ∧
    execAll (_forti_diff b l [] .empty).1 ⟨l, []⟩ = some ⟨l', []⟩ ∧ (_forti_diff b l' [] .empty).1 = [] := by
  have hb : (parse_fortios policyBackup).map linesWellRead = some true := by with_unfolding_all decide
  have hl : (parse_fortios policyLive).map linesWellRead = some true := by with_unfolding_all decide
  obtain ⟨b, hb, hbr⟩ := Option.map_eq_some_iff.mp hb
  obtain ⟨l, hl, hlr⟩ := Option.map_eq_some_iff.mp hl
  obtain ⟨l', hrun, hcmds, -⟩ := restore_converges policyBackup policyLive b l hb hl hbr hlr .empty
  exact ⟨b, l, l', hb, hl, hrun, hcmds⟩

end FortiRestore
