import Ngcorion.Backup.FortiDevice

/-!
# Well-formed FortiOS scopes

A scope whose lines have one of the three forms `config <words>`,
`edit <name>` and `set <key> <value>`, filed under distinct keys. The commands
that recreate, empty and reorder such a scope do so on a device.
-/
namespace FortiScope

open Text ConfigTree FortiOS FortiDevice

/-- The three forms of a configuration line, with the key each is filed under. -/
inductive Form : Str → Str → Forest → Prop where
  | set (k v : Str) (hk : isKey k = true) (hv : startsWord v = true) :
      Form (lit "set " ++ k) (lit "set " ++ (k ++ ' ' :: v)) .nil
  | edit (n : Str) (hn : oneWord n = true) (children : Forest) :
      Form (lit "edit " ++ n) (lit "edit " ++ n) children
  | config (w : Str) (hw : startsWord w = true) (children : Forest) :
      Form (lit "config " ++ w) (lit "config " ++ w) children

/-- A tree of well-formed lines with distinct keys in every scope. -/
abbrev Good (f : Forest) : Prop := f.Every Form

/-! ## The words of a line -/

theorem lstrip_startsWord (s : Str) (h : startsWord s = true) : lstrip s = s := by
  cases s with
  | nil => rfl
  | cons c s =>
    simp only [startsWord, Bool.not_eq_true'] at h
    simp [lstrip, h]

theorem splitMax_zero (s : Str) (h : startsWord s = true) : splitMax 0 s = [s] := by
  have hne : s ≠ [] := by rintro rfl; simp [startsWord] at h
  simp [splitMax, lstrip_startsWord s h, hne]

theorem startsWord_append (w r : Str) (hw : isKey w = true) : startsWord (w ++ r) = true := by
  cases w with
  | nil => simp [isKey] at hw
  | cons c w =>
    simp only [isKey, Bool.and_eq_true, List.all_eq_true] at hw
    exact hw.2 c (by simp)

theorem splitMax_word (n : Nat) (w r : Str) (hw : isKey w = true) :
    splitMax (n + 1) (w ++ ' ' :: r) = w :: splitMax n r := by
  simp only [isKey, Bool.and_eq_true, decide_eq_true_eq, List.all_eq_true, Bool.not_eq_true'] at hw
  exact splitMax_cons n hw.1 hw.2 r

theorem words_set (k : Str) : lit "set " ++ k = lit "set" ++ ' ' :: k := append_verb _ _ k
    (by with_unfolding_all decide)
theorem words_edit (n : Str) : lit "edit " ++ n = lit "edit" ++ ' ' :: n := append_verb _ _ n
    (by with_unfolding_all decide)
theorem words_config (w : Str) : lit "config " ++ w = lit "config" ++ ' ' :: w := append_verb _ _ w
    (by with_unfolding_all decide)

theorem isKey_verbs : isKey (lit "set") = true ∧ isKey (lit "edit") = true ∧ isKey (lit "config") = true := by
  with_unfolding_all decide

theorem startsWord_of_isKey (k : Str) (h : isKey k = true) : startsWord k = true := by
  simpa using startsWord_append k [] h

theorem startsWord_of_oneWord (n : Str) (h : oneWord n = true) : startsWord n = true := by
  simp only [oneWord, Bool.and_eq_true] at h
  exact h.1.1

@[simp] theorem verb_set (s : Str) : verb (lit "set " ++ s) = lit "set" := by
  rw [words_set, verb, splitMax_word 0 _ _ isKey_verbs.1]; rfl

@[simp] theorem verb_edit (n : Str) : verb (lit "edit " ++ n) = lit "edit" := by
  rw [words_edit, verb, splitMax_word 0 _ _ isKey_verbs.2.1]; rfl

@[simp] theorem verb_config (w : Str) : verb (lit "config " ++ w) = lit "config" := by
  rw [words_config, verb, splitMax_word 0 _ _ isKey_verbs.2.2]; rfl

theorem argument_set (k : Str) (h : startsWord k = true) : argument (lit "set " ++ k) = some k := by
  rw [words_set, argument, splitMax_word 0 _ _ isKey_verbs.1, splitMax_zero k h]; rfl

theorem argument_edit (n : Str) (h : startsWord n = true) : argument (lit "edit " ++ n) = some n := by
  rw [words_edit, argument, splitMax_word 0 _ _ isKey_verbs.2.1, splitMax_zero n h]; rfl

theorem verb_ne : lit "edit" ≠ lit "set" ∧ lit "config" ≠ lit "set" ∧ lit "config" ≠ lit "edit" := by
  with_unfolding_all decide

theorem closer_edit (n : Str) : closer (lit "edit " ++ n) = lit "next" := by simp [closer]

theorem closer_config (w : Str) : closer (lit "config " ++ w) = lit "end" := by
  simp [closer, verb_ne]

/-- Opening, filling and closing a scope line of either kind. -/
theorem runs_form (key line : Str) (children : Forest) (hf : Form key line children)
    (hv : verb line ≠ lit "set") (inner : List Str) (f g : Forest) (h : Runs inner (sub f key) g) :
    Runs (line :: (inner ++ [closer line])) f (f.set key line g) := by
  cases hf with
  | set k v hk hw => simp at hv
  | edit n hn => rw [closer_edit]; exact runs_edit n hn inner f g h
  | config w hw => rw [closer_config]; exact runs_config w hw inner f g h

/-- Lines that share a key are of one kind. -/
theorem form_same_kind {key line line' : Str} {c c' : Forest} (h : Form key line c) (h' : Form key line' c') :
    verb line = lit "set" ↔ verb line' = lit "set" := by
  have hse : ∀ a b : Str, lit "set " ++ a ≠ lit "edit " ++ b := by intro a b; simp [lit]
  have hsc : ∀ a b : Str, lit "set " ++ a ≠ lit "config " ++ b := by intro a b; simp [lit]
  have hv := verb_ne
  generalize hk : key = key' at h'
  cases h with
  | set k v =>
    cases h' with
    | set k' v' => simp
    | edit n => exact absurd hk (hse k n)
    | config w => exact absurd hk (hsc k w)
  | edit n =>
    cases h' with
    | set k' v' => exact absurd hk.symm (hse k' n)
    | edit n' => simp
    | config w' => simp [hv]
  | config w =>
    cases h' with
    | set k' v' => exact absurd hk.symm (hsc k' w)
    | edit n' => simp [hv]
    | config w' => simp

theorem form_scope {key line : Str} {c : Forest} (h : Form key line c) (hv : verb line ≠ lit "set") :
    line = key := by
  cases h with
  | set k v => simp at hv
  | edit n => rfl
  | config w => rfl

/-! ## The order of the entries -/

def editKeys (f : Forest) : List Str := f.keys.filter isEditKey

@[simp] theorem isEditKey_edit (n : Str) : isEditKey (lit "edit " ++ n) = true := startsWith_append _ _
@[simp] theorem isEditKey_set (k : Str) : isEditKey (lit "set " ++ k) = false := by
  simp [isEditKey, startsWith, lit, List.isPrefixOf]
@[simp] theorem isEditKey_config (w : Str) : isEditKey (lit "config " ++ w) = false := by
  simp [isEditKey, startsWith, lit, List.isPrefixOf]

theorem editKeys_set (f : Forest) (key line : Str) (c : Forest) :
    editKeys (f.set key line c) =
      if key ∈ f.keys then editKeys f else editKeys f ++ [key].filter isEditKey := by
  rw [editKeys, Forest.keys_set]
  split <;> simp [editKeys]

theorem editKeys_erase (f : Forest) (key : Str) : editKeys (f.erase key) = (editKeys f).filter (· ≠ key) := by
  simp only [editKeys, Forest.keys_erase, List.filter_filter, Bool.and_comm]

/-- The entry keys of a well-formed scope are its entry names with their verb. -/
theorem editKeys_eq {f : Forest} (h : Good f) : editKeys f = (editNames f).map (lit "edit " ++ ·) := by
  rw [editNames, List.map_map]
  conv_lhs => rw [← List.map_id (editKeys f)]
  refine List.map_inj_left.mpr (fun key hk => ?_)
  obtain ⟨hm, he⟩ := List.mem_filter.mp hk
  obtain ⟨⟨key', line, c⟩, hc, rfl⟩ := List.mem_map.mp hm
  have hform := (h.entry hc).1
  cases hform with
  | set k v => simp at he
  | config w => simp at he
  | edit n hn => simp [argument_edit n (startsWord_of_oneWord n hn)]

theorem oneWord_of_mem_editNames {f : Forest} (h : Good f) : ∀ n ∈ editNames f, oneWord n = true := by
  intro n hn
  obtain ⟨key, hk, rfl⟩ := List.mem_map.mp hn
  obtain ⟨hm, he⟩ := List.mem_filter.mp hk
  obtain ⟨⟨key', line, c⟩, hc, rfl⟩ := List.mem_map.mp hm
  have hform := (h.entry hc).1
  cases hform with
  | set k v => simp at he
  | config w => simp at he
  | edit n hw => simpa [argument_edit n (startsWord_of_oneWord n hw)] using hw

theorem insertBefore_map {α β : Type} (g : α → β) (stop : β → Bool) (e : α) (l : List α) :
    (insertBefore (fun x => stop (g x)) e l).map g = insertBefore stop (g e) (l.map g) := by
  induction l with
  | nil => rfl
  | cons x l ih => by_cases h : stop (g x) = true <;> simp [insertBefore_cons, h, ih]

theorem insertBefore_filter {α : Type} (keep stop : α → Bool) (e : α) (he : keep e = true)
    (hs : ∀ x, stop x = true → keep x = true) (l : List α) :
    (insertBefore stop e l).filter keep = insertBefore stop e (l.filter keep) := by
  induction l with
  | nil => simp [insertBefore_nil, he]
  | cons x l ih =>
    by_cases h : stop x = true
    · simp [insertBefore_cons, h, hs x h, he]
    · by_cases hk : keep x = true <;> simp [insertBefore_cons, h, hk, ih]

theorem insertBefore_split {α : Type} (stop : α → Bool) (e x : α) (before after : List α) (hx : stop x = true)
    (hb : ∀ y ∈ before, stop y = false) :
    insertBefore stop e (before ++ x :: after) = before ++ e :: x :: after := by
  induction before with
  | nil => simp [insertBefore_cons, hx]
  | cons y before ih =>
    have hy := hb y (by simp)
    simp [insertBefore_cons, hy, ih (fun z hz => hb z (by simp [hz]))]

theorem insertBefore_perm {α : Type} (stop : α → Bool) (e : α) (l : List α) :
    (insertBefore stop e l).Perm (e :: l) := by
  induction l with
  | nil => exact .refl _
  | cons x l ih =>
    by_cases h : stop x = true
    · simp [insertBefore_cons, h]
    · simp only [insertBefore_cons, h, if_false, Bool.false_eq_true]
      exact (ih.cons x).trans (.swap e x l)

theorem keys_moveBefore (f : Forest) (key mark : Str) (h : key ∈ f.keys) :
    (moveBefore f key mark).keys = insertBefore (fun k => k = mark) key (f.keys.filter (· ≠ key)) := by
  cases hg : f.get key with
  | none => exact absurd h ((Forest.get_eq_none f key).mp hg)
  | some v =>
    simp only [moveBefore, hg, Forest.keys, Forest.entries_ofEntries, Dict.keys]
    rw [insertBefore_map Prod.fst (fun k => decide (k = mark))]
    simp [List.filter_map, Function.comp_def]

theorem entries_moveBefore_perm (f : Forest) (key mark : Str) (hn : f.keys.Nodup) :
    (moveBefore f key mark).entries.Perm f.entries := by
  cases hg : f.get key with
  | none => simp [moveBefore, hg]
  | some v =>
    have hm := (Forest.get_eq_some f hn key v.1 v.2).mp hg
    simp only [moveBefore, hg, Forest.entries_ofEntries]
    refine (insertBefore_perm _ _ _).trans ?_
    have hnd : f.entries.Nodup := List.Nodup.of_map Prod.fst hn
    have herase : f.entries.filter (fun e => decide (e.1 ≠ key)) = f.entries.erase (key, v) := by
      rw [hnd.erase_eq_filter]
      refine List.filter_congr (fun e he => ?_)
      have : e.1 = key ↔ e = (key, v) := by
        constructor
        · intro hk
          exact List.inj_on_of_nodup_map hn he hm hk
        · rintro rfl
          rfl
      by_cases h : e = (key, v) <;> simp [this, h]
    rw [herase]
    exact (List.perm_cons_erase hm).symm

theorem get_perm {f g : Forest} (h : Good f) (hp : g.entries.Perm f.entries) (key : Str) :
    g.get key = f.get key := by
  have hg := h.perm hp
  cases hf : f.get key with
  | none =>
    rw [Forest.get_eq_none] at hf ⊢
    exact fun hm => hf (((hp.map Prod.fst).mem_iff).mp hm)
  | some v =>
    have hm := (Forest.get_eq_some f h.nodup key v.1 v.2).mp hf
    exact (Forest.get_eq_some g hg.nodup key v.1 v.2).mpr (hp.mem_iff.mpr hm)

theorem edit_injective : Function.Injective (fun n : Str => lit "edit " ++ n) := fun _ _ h => List.append_cancel_left h

theorem nodup_editNames {f : Forest} (h : Good f) : (editNames f).Nodup := by
  have hk : (editKeys f).Nodup := h.nodup.filter _
  rw [editKeys_eq h] at hk
  exact List.Nodup.of_map _ hk

theorem mem_keys_of_mem_editNames {f : Forest} (h : Good f) (n : Str) (hn : n ∈ editNames f) :
    lit "edit " ++ n ∈ f.keys := by
  have hm : lit "edit " ++ n ∈ editKeys f := by
    rw [editKeys_eq h]
    exact List.mem_map_of_mem hn
  exact (List.mem_filter.mp hm).1

/-- Moving an entry moves its name in the list of names. -/
theorem editNames_moveBefore {f : Forest} (h : Good f) (a b : Str) (ha : a ∈ editNames f) :
    editNames (moveBefore f (lit "edit " ++ a) (lit "edit " ++ b)) =
      insertBefore (fun n => n = b) a ((editNames f).filter (· ≠ a)) := by
  have hg := h.perm (entries_moveBefore_perm f (lit "edit " ++ a) (lit "edit " ++ b) h.nodup)
  refine List.map_injective_iff.mpr edit_injective ?_
  change (editNames _).map (lit "edit " ++ ·) = _
  rw [← editKeys_eq hg, editKeys, keys_moveBefore f _ _ (mem_keys_of_mem_editNames h a ha),
    insertBefore_filter _ _ _ (isEditKey_edit a) (by intro x hx; simp only [decide_eq_true_eq] at hx; simp [hx])]
  have hmap := insertBefore_map (fun n : Str => lit "edit " ++ n) (fun k => decide (k = lit "edit " ++ b)) a
    ((editNames f).filter (· ≠ a))
  simp only [List.append_cancel_left_eq] at hmap
  rw [hmap]
  congr 1
  have hkeys := editKeys_eq h
  rw [List.filter_comm, ← editKeys, hkeys, List.filter_map]
  simp [Function.comp_def]

theorem insertIdx_append_length {α : Type} (before after : List α) (a : α) :
    (before ++ after).insertIdx before.length a = before ++ a :: after := by
  induction before with
  | nil => simp
  | cons x before ih => simp [ih]

/-- The moves bring the entries of a scope from any order into the desired one;
the part already in place grows by one name at every position. -/
theorem runs_moves (desired : List Str) (f : Forest) (hf : Good f) (done rest : List Str)
    (hnames : editNames f = done ++ rest) (hperm : rest.Perm desired) :
    ∃ g, Runs (movesFrom done.length desired (done ++ rest)) f g ∧ g.entries.Perm f.entries ∧
      editNames g = done ++ desired := by
  induction desired generalizing f done rest with
  | nil =>
    have hr : rest = [] := hperm.eq_nil
    subst hr
    exact ⟨f, Runs.nil f, .refl _, hnames⟩
  | cons name desired ih =>
    cases rest with
    | nil => exact absurd hperm.symm.eq_nil (by simp)
    | cons c cs =>
      have hat : (done ++ c :: cs)[done.length]? = some c := by simp
      have happ : ∀ x : Str, ∀ xs : List Str, done ++ x :: xs = (done ++ [x]) ++ xs := by simp
      by_cases hc : c = name
      · subst hc
        obtain ⟨g, hrun, hp, hg⟩ := ih f hf (done ++ [c]) cs (by rw [hnames, happ]) hperm.cons_inv
        refine ⟨g, ?_, hp, by simp [hg]⟩
        simp only [movesFrom, hat, if_true]
        rw [happ]
        simpa using hrun
      · have hnd : (done ++ c :: cs).Nodup := hnames ▸ nodup_editNames hf
        have hmem : name ∈ c :: cs := hperm.mem_iff.mpr (by simp)
        have hin : name ∈ cs := by simpa [Ne.symm hc] using hmem
        have hndc : (c :: cs).Nodup := (List.nodup_append.mp hnd).2.1
        have hdone : name ∉ done := fun hd => (List.nodup_append.mp hnd).2.2 name hd name hmem rfl
        have hcur : ((done ++ c :: cs).erase name).insertIdx done.length name = done ++ name :: c :: cs.erase name := by
          rw [List.erase_append_right _ hdone, List.erase_cons_tail (by simpa using hc), insertIdx_append_length]
        have hfilter : (done ++ c :: cs).filter (· ≠ name) = done ++ c :: cs.erase name := by
          have hd : done.filter (· ≠ name) = done :=
            List.filter_eq_self.mpr (fun x hx => by simpa using fun he : x = name => hdone (he ▸ hx))
          have hcs : cs.filter (· ≠ name) = cs.erase name := by
            rw [(List.nodup_cons.mp hndc).2.erase_eq_filter]
            exact List.filter_congr (fun x _ => by by_cases hx : x = name <;> simp [hx])
          rw [List.filter_append, hd, List.filter_cons_of_pos (by simpa using hc), hcs]
        have hmoved : editNames (moveBefore f (lit "edit " ++ name) (lit "edit " ++ c)) =
            (done ++ [name]) ++ c :: cs.erase name := by
          rw [editNames_moveBefore hf name c (by simp [hnames, hin]), hnames, hfilter,
            insertBefore_split _ _ _ _ _ (by simp)]
          · simp
          · intro y hy
            have hyc : y ≠ c := fun he => (List.nodup_append.mp hnd).2.2 y hy c (by simp) he
            simpa using hyc
        have hp := entries_moveBefore_perm f (lit "edit " ++ name) (lit "edit " ++ c) hf.nodup
        have hrest : (c :: cs.erase name).Perm desired := by
          have := hperm.erase name
          simpa [List.erase_cons_tail, hc] using this
        obtain ⟨g, hrun, hpg, hg⟩ := ih _ (hf.perm hp) (done ++ [name]) (c :: cs.erase name) hmoved hrest
        refine ⟨g, ?_, hpg.trans hp, by simp [hg]⟩
        simp only [movesFrom, hat, hc, if_false, hcur]
        have hone := oneWord_of_mem_editNames hf
        refine Runs.cons (runs_move name c (hone name (by simp [hnames, hin])) (hone c (by simp [hnames])) f
          (mem_keys_of_mem_editNames hf name (by simp [hnames, hin]))
          (mem_keys_of_mem_editNames hf c (by simp [hnames]))) ?_
        rw [happ]
        simpa using hrun

/-! ## Recreating a scope -/

theorem entries_set_of_not_mem (f : Forest) (key line : Str) (c : Forest) (h : key ∉ f.keys) :
    (f.set key line c).entries = f.entries ++ [(key, line, c)] := by
  simp only [Forest.set, Forest.entries_ofEntries]
  exact Dict.set_of_not_mem f.entries key (line, c) h

theorem sub_of_not_mem (f : Forest) (key : Str) (h : key ∉ f.keys) : sub f key = .nil := by
  simp [sub, (Forest.get_eq_none f key).mpr h]

/-- The body commands append an exact copy of a scope's children. -/
theorem runs_body_append (c : Forest) (hc : Good c) (f : Forest) (hd : ∀ key ∈ c.keys, key ∉ f.keys) :
    Runs (_forti_body c) f (.ofEntries (f.entries ++ c.entries)) := by
  induction c generalizing f with
  | nil => simpa [_forti_body] using Runs.nil f
  | cons key line children rest ihc ihr =>
    have hkey : key ∉ f.keys := hd key (by simp)
    have hent := entries_set_of_not_mem f key line children hkey
    have hdr : ∀ k ∈ rest.keys, k ∉ (f.set key line children).keys := by
      intro k hk
      have hne : k ≠ key := fun he => hc.1 (he ▸ hk)
      have hf := hd k (by simp [hk])
      simp [Forest.keys_set, hkey, hf, hne]
    have hrest := ihr hc.2.2.2 (f.set key line children) hdr
    rw [hent, List.append_assoc] at hrest
    refine Runs.append ?_ hrest
    by_cases hv : verb line = lit "set"
    · rw [if_pos hv]
      cases hc.2.1 with
      | set k v hk hw => exact runs_set k v hk hw f
      | edit n => exact absurd hv (by simp [verb_ne])
      | config w => exact absurd hv (by simp [verb_ne])
    · rw [if_neg hv]
      refine runs_form key line children hc.2.1 hv _ f children ?_
      rw [sub_of_not_mem f key hkey]
      simpa using ihc hc.2.2.1 .nil (by simp)

theorem runs_body (c : Forest) (hc : Good c) : Runs (_forti_body c) .nil c := by
  simpa using runs_body_append c hc .nil (by simp)

end FortiScope
