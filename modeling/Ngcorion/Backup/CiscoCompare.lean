import Ngcorion.Backup.CiscoDevice

/-!
# When two IOS configurations compare as equal

Banners and certificate chains aside, the comparison of two configurations is
empty exactly when they have the same lines in the same sub-modes, in whatever
order.
-/
namespace CiscoCompare

open Text ConfigTree CiscoIOS

/-! ## Marked differences -/

def Clean (m : Marks) : Prop := ∀ l ∈ m.diff.marks, l.op = .context

/-- The current section is one of the sections. -/
def Ok (m : Marks) : Prop := ∀ i, m.current = some i → i < m.diff.sections.length

theorem is_empty_iff_clean (d : ConfigDiff) : d.is_empty = true ↔ ∀ l ∈ d.marks, l.op = .context := by
  simp [ConfigDiff.is_empty]

theorem mem_modify_lines (line l : DiffLine) (sections : List DiffSection) (i : Nat) (hi : i < sections.length) :
    l ∈ (sections.modify i (appendLine line)).flatMap DiffSection.lines ↔
      l = line ∨ l ∈ sections.flatMap DiffSection.lines := by
  induction sections generalizing i with
  | nil => simp at hi
  | cons s sections ih =>
    cases i with
    | zero =>
      simp only [List.modify_zero_cons, List.flatMap_cons, List.mem_append, appendLine, List.mem_singleton]
      tauto
    | succ i =>
      simp only [List.modify_succ_cons, List.flatMap_cons, List.mem_append]
      rw [ih i (by simpa using hi)]
      tauto

theorem clean_mark (title : Str) (op : Op) (text : Str) (m : Marks) (hm : Ok m) :
    Clean (mark title op text m) ↔ op = .context ∧ Clean m := by
  cases hc : m.current with
  | none =>
    simp only [Clean, mark, hc, ConfigDiff.marks, List.flatMap_append, List.mem_append, List.flatMap_cons,
      List.flatMap_nil, List.append_nil, List.mem_singleton]
    constructor
    · intro h
      exact ⟨h ⟨op, text⟩ (Or.inr rfl), fun l hl => h l (Or.inl hl)⟩
    · rintro ⟨hop, h⟩ l (hl | rfl)
      · exact h l hl
      · exact hop
  | some i =>
    simp only [Clean, mark, hc, ConfigDiff.marks, mem_modify_lines _ _ _ i (hm i hc)]
    constructor
    · intro h
      exact ⟨h ⟨op, text⟩ (Or.inl rfl), fun l hl => h l (Or.inr hl)⟩
    · rintro ⟨hop, h⟩ l (rfl | hl)
      · exact hop
      · exact h l hl

/-- The sections of `m` are still there, and the current one is valid. -/
structure Grows (m m' : Marks) : Prop where
  ok : Ok m'
  sections : m.diff.sections.length ≤ m'.diff.sections.length

theorem Grows.refl {m : Marks} (h : Ok m) : Grows m m := ⟨h, Nat.le_refl _⟩

theorem Grows.trans {m m' m'' : Marks} (h : Grows m m') (h' : Grows m' m'') : Grows m m'' :=
  ⟨h'.ok, Nat.le_trans h.sections h'.sections⟩

theorem grows_mark (title : Str) (op : Op) (text : Str) (m : Marks) (hm : Ok m) : Grows m (mark title op text m) := by
  cases hc : m.current with
  | none =>
    constructor
    · intro i hi
      simp only [mark, hc, Option.some.injEq] at hi
      simp [mark, hc, ← hi]
    · simp [mark, hc]
  | some i =>
    constructor
    · intro j hj
      simp only [mark, hc, Option.some.injEq] at hj
      simpa [mark, hc, ← hj] using hm i hc
    · simp [mark, hc]

theorem grows_markAll (width : Nat) (title : Str) (op : Op) (texts : List (Nat × Str)) (m : Marks) (hm : Ok m) :
    Grows m (markAll width title op texts m) := by
  induction texts generalizing m with
  | nil => exact Grows.refl hm
  | cons t texts ih =>
    have hstep := grows_mark title op (List.replicate (width * t.1) ' ' ++ t.2) m hm
    exact hstep.trans (ih _ hstep.ok)

theorem clean_of_markAll (width : Nat) (title : Str) (op : Op) (texts : List (Nat × Str)) (m : Marks) (hm : Ok m)
    (h : Clean (markAll width title op texts m)) : Clean m := by
  induction texts generalizing m with
  | nil => exact h
  | cons t texts ih =>
    have hstep := grows_mark title op (List.replicate (width * t.1) ' ' ++ t.2) m hm
    exact ((clean_mark _ _ _ m hm).mp (ih _ hstep.ok h)).2

/-- A line marked with its subtree. -/
def markTree (title : Str) (op : Op) (line : Str) (children : Forest) (m : Marks) : Marks :=
  markAll 1 title op (children.flatten 1) (mark title op line m)

theorem grows_markTree (title : Str) (op : Op) (line : Str) (children : Forest) (m : Marks) (hm : Ok m) :
    Grows m (markTree title op line children m) :=
  (grows_mark title op line m hm).trans (grows_markAll 1 title op _ _ (grows_mark title op line m hm).ok)

theorem not_clean_markTree (title : Str) (op : Op) (line : Str) (children : Forest) (m : Marks) (hm : Ok m)
    (hop : op ≠ .context) : ¬ Clean (markTree title op line children m) := by
  intro h
  have hmark := clean_of_markAll 1 title op _ _ (grows_mark title op line m hm).ok h
  exact hop ((clean_mark title op line m hm).mp hmark).1

/-! ## The same lines -/

/-- Every line of the backup is there, and what is inside it is the same. -/
def Covers : Forest → Forest → Prop
  | .nil, _ => True
  | .cons key _ children rest, g =>
    (∃ line c, g.get key = some (line, c) ∧ Covers children c ∧ ∀ k ∈ c.keys, k ∈ children.keys) ∧ Covers rest g

/-- The same lines in the same sub-modes. -/
def SameTree (b g : Forest) : Prop := Covers b g ∧ ∀ k ∈ g.keys, k ∈ b.keys

/-- A line that is neither a banner nor a certificate chain, as the parser files it. -/
structure Plain (u : Unicode) (key line : Str) (_children : Forest) : Prop where
  line_eq : line = key
  bare : key.head? ≠ some ' '
  restorable : unrestorable u key = false
  no_banner : isBanner key = false

/-- No certificate chain anywhere. -/
def NoChains (u : Unicode) : Forest → Prop
  | .nil => True
  | .cons key _ children rest => unrestorable u key = false ∧ NoChains u children ∧ NoChains u rest

theorem noChains_iff (u : Unicode) (f : Forest) :
    NoChains u f ↔ ∀ e ∈ f.entries, unrestorable u e.1 = false ∧ NoChains u e.2.2 := by
  induction f with
  | nil => simp [NoChains]
  | cons key line children rest _ ih => simp [NoChains, ih, and_assoc]

theorem NoChains.get {u : Unicode} {f : Forest} (h : NoChains u f) {key line : Str} {c : Forest}
    (hg : f.get key = some (line, c)) : NoChains u c :=
  ((noChains_iff u f).mp h (key, line, c) (Dict.mem_of_get _ _ _ hg)).2

theorem noChains_of_plain {u : Unicode} {f : Forest} (h : f.Every (Plain u)) : NoChains u f := by
  induction f with
  | nil => trivial
  | cons key line children rest ihc ihr => exact ⟨h.2.1.restorable, ihc h.2.2.1, ihr h.2.2.2⟩

theorem liveLoop_compare (u : Unicode) (title : Str) (b : Forest) (settings : List Str) (l : Forest)
    (hl : NoChains u l) (m : Marks) (hm : Ok m) :
    Grows m (liveLoop u title b settings l m).2 ∧
      (Clean (liveLoop u title b settings l m).2 ↔ Clean m ∧ ∀ k ∈ l.keys, k ∈ b.keys) := by
  induction l generalizing m with
  | nil => exact ⟨Grows.refl hm, by simp [liveLoop]⟩
  | cons key line children rest _ ihr =>
    obtain ⟨hkey, -, hrest⟩ := hl
    by_cases hb : key ∈ b.keys
    · have hi := ihr hrest m hm
      simpa [liveLoop, hb] using hi
    · have hmarked : ∀ m', Grows m m' → ¬ Clean m' →
          Grows m (liveLoop u title b settings rest m').2 ∧
            (Clean (liveLoop u title b settings rest m').2 ↔ Clean m ∧ ∀ k ∈ key :: rest.keys, k ∈ b.keys) := by
        intro m' hgrows hdirty
        obtain ⟨hg, hc⟩ := ihr hrest m' hgrows.ok
        refine ⟨hgrows.trans hg, ?_⟩
        rw [hc]
        constructor
        · exact fun h => absurd h.1 hdirty
        · exact fun h => absurd (h.2 key (by simp)) hb
      simp only [liveLoop, hb, hkey, decide_false, Bool.or_self, Bool.false_eq_true, if_false, Forest.keys_cons]
      by_cases hban : isBanner key = true
      · simp only [hban, if_true]
        refine hmarked _ (grows_mark title .removed key m hm) ?_
        simp [clean_mark title .removed key m hm]
      simp only [hban, if_false, Bool.false_eq_true]
      by_cases hneg : isNegative u key = true
      · simp only [hneg, if_true]
        refine hmarked _ (grows_mark title .removed line m hm) ?_
        simp [clean_mark title .removed line m hm]
      · simp only [hneg, if_false, Bool.false_eq_true]
        exact hmarked _ (grows_markTree title .removed line children m hm)
          (not_clean_markTree title .removed line children m hm (by simp))

/-- What one comparison does to the marks, given what its first loop does. -/
theorem diff_compare {u : Unicode} {path : List Str} {b l : Forest} {diff : ConfigDiff} (hl : NoChains u l)
    (hgrows : Grows ⟨diff, none⟩ (backupLoop u path b l ⟨diff, none⟩).marks)
    (hclean : Clean (backupLoop u path b l ⟨diff, none⟩).marks ↔ Clean ⟨diff, none⟩ ∧ Covers b l) :
    diff.sections.length ≤ (_cisco_diff u b l path diff).2.sections.length ∧
      (Clean ⟨(_cisco_diff u b l path diff).2, none⟩ ↔ Clean ⟨diff, none⟩ ∧ SameTree b l) := by
  obtain ⟨hg, hc⟩ := liveLoop_compare u (titleOf path) b (backupLoop u path b l ⟨diff, none⟩).settings l hl _ hgrows.ok
  refine ⟨(hgrows.trans hg).sections, ?_⟩
  have hsame : Clean ⟨(_cisco_diff u b l path diff).2, none⟩ ↔ Clean (liveLoop u (titleOf path) b
      (backupLoop u path b l ⟨diff, none⟩).settings l (backupLoop u path b l ⟨diff, none⟩).marks).2 := Iff.rfl
  rw [hsame, hc, hclean, SameTree, and_assoc]

/-- What the loop makes of an entry that is neither a banner nor a certificate. -/
theorem backupLoop_plain {u : Unicode} {path : List Str} {key line : Str} {children rest l : Forest} {m : Marks}
    (hp : Plain u key line children) :
    backupLoop u path (.cons key line children rest) l m =
      let step : Pass := match l.get key with
        | none => ⟨_cisco_block line children, [], if _setting_id u key = [] then [] else [_setting_id u key],
            markTree (titleOf path) .added line children m⟩
        | some (_, liveChildren) =>
          if children = .nil ∧ liveChildren = .nil then ⟨[], [], [], m⟩
          else
            let inner := _cisco_diff u children liveChildren (path ++ [line]) m.diff
            ⟨[], if inner.1 = [] then [] else line :: (inner.1 ++ [lit "exit"]), [], ⟨inner.2, m.current⟩⟩
      let later := backupLoop u path rest l step.marks
      ⟨step.adds ++ later.adds, step.nested ++ later.nested, step.settings ++ later.settings, later.marks⟩ := by
  simp only [backupLoop, hp.restorable, hp.no_banner, Bool.false_eq_true, if_false]
  rfl

/-- A sub-mode that both sides have is compared as a whole. -/
theorem backupLoop_scope {u : Unicode} {path : List Str} {key line old : Str} {children liveChildren rest l : Forest}
    {m : Marks} (hp : Plain u key line children) (hg : l.get key = some (old, liveChildren))
    (hc : ¬ (children = .nil ∧ liveChildren = .nil)) :
    backupLoop u path (.cons key line children rest) l m =
      let inner := _cisco_diff u children liveChildren (path ++ [key]) m.diff
      let later := backupLoop u path rest l ⟨inner.2, m.current⟩
      ⟨later.adds, (if inner.1 = [] then [] else key :: (inner.1 ++ [lit "exit"])) ++ later.nested, later.settings,
        later.marks⟩ := by
  have hline := hp.line_eq
  subst hline
  simp only [backupLoop_plain hp, hg, hc, if_false, List.nil_append]

/-- A line that both sides have without a sub-mode is the same. -/
theorem backupLoop_leaf {u : Unicode} {path : List Str} {key line old : Str} {rest l : Forest} {m : Marks}
    (hp : Plain u key line .nil) (hg : l.get key = some (old, .nil)) :
    backupLoop u path (.cons key line .nil rest) l m = backupLoop u path rest l m := by
  simp [backupLoop_plain hp, hg]

/-- A line that only the backup has is added with its sub-mode. -/
theorem backupLoop_new {u : Unicode} {path : List Str} {key line : Str} {children rest l : Forest} {m : Marks}
    (hp : Plain u key line children) (hg : l.get key = none) :
    backupLoop u path (.cons key line children rest) l m =
      let later := backupLoop u path rest l (markTree (titleOf path) .added key children m)
      ⟨_cisco_block key children ++ later.adds, later.nested,
        (if _setting_id u key = [] then [] else [_setting_id u key]) ++ later.settings, later.marks⟩ := by
  have hline := hp.line_eq
  subst hline
  simp only [backupLoop_plain hp, hg, List.nil_append]

theorem backupLoop_compare (u : Unicode) (b : Forest) (hb : b.Every (Plain u)) (path : List Str) (l : Forest)
    (hl : NoChains u l) (m : Marks) (hm : Ok m) :
    Grows m (backupLoop u path b l m).marks ∧ (Clean (backupLoop u path b l m).marks ↔ Clean m ∧ Covers b l) := by
  induction b generalizing path l m with
  | nil => exact ⟨Grows.refl hm, by simp [Covers]⟩
  | cons key line children rest ihc ihr =>
    obtain ⟨-, hplain, hchildren, hrest⟩ := hb
    cases hg : l.get key with
    | none =>
      rw [backupLoop_new hplain hg]
      have hgrows := grows_markTree (titleOf path) .added key children m hm
      obtain ⟨hg', hc'⟩ := ihr hrest path l hl _ hgrows.ok
      refine ⟨hgrows.trans hg', ?_⟩
      simp only [hc', Covers, hg]
      constructor
      · exact fun h => absurd h.1 (not_clean_markTree _ .added key children m hm (by simp))
      · rintro ⟨-, ⟨_, _, h, -⟩, -⟩
        simp at h
    | some n =>
      obtain ⟨old, liveChildren⟩ := n
      have hinside : Covers (.cons key line children rest) l ↔ SameTree children liveChildren ∧ Covers rest l := by
        simp only [Covers, hg, SameTree]
        constructor
        · rintro ⟨⟨_, c, hc, hcov, hkeys⟩, hr⟩
          cases hc
          exact ⟨⟨hcov, hkeys⟩, hr⟩
        · rintro ⟨⟨hcov, hkeys⟩, hr⟩
          exact ⟨⟨old, liveChildren, rfl, hcov, hkeys⟩, hr⟩
      by_cases hnil : children = .nil ∧ liveChildren = .nil
      · obtain ⟨rfl, rfl⟩ := hnil
        rw [backupLoop_leaf hplain hg, hinside]
        have hsame : SameTree .nil .nil := ⟨trivial, by simp⟩
        simpa [hsame] using ihr hrest path l hl m hm
      · rw [backupLoop_scope hplain hg hnil, hinside]
        have hstart : Ok ⟨m.diff, none⟩ := by
          intro i hi
          simp at hi
        obtain ⟨hg₁, hc₁⟩ := ihc hchildren (path ++ [key]) liveChildren (hl.get hg) ⟨m.diff, none⟩ hstart
        obtain ⟨hlen, hclean⟩ := diff_compare (hl.get hg) hg₁ hc₁
        have hok : Ok ⟨(_cisco_diff u children liveChildren (path ++ [key]) m.diff).2, m.current⟩ := by
          intro i hi
          exact Nat.lt_of_lt_of_le (hm i hi) hlen
        obtain ⟨hg₂, hc₂⟩ := ihr hrest path l hl _ hok
        refine ⟨⟨hg₂.ok, Nat.le_trans hlen hg₂.sections⟩, ?_⟩
        have hinner : Clean ⟨(_cisco_diff u children liveChildren (path ++ [key]) m.diff).2, m.current⟩ ↔
            Clean m ∧ SameTree children liveChildren := hclean
        rw [hc₂, hinner, and_assoc]

/-- The comparison is empty exactly when the lines are the same. -/
theorem is_empty_iff_sameTree {u : Unicode} {b l : Forest} (hb : b.Every (Plain u)) (hl : NoChains u l) :
    (_cisco_diff u b l [] .empty).2.is_empty = true ↔ SameTree b l := by
  have hstart : Ok ⟨.empty, none⟩ := by
    intro i hi
    simp at hi
  obtain ⟨hg, hc⟩ := backupLoop_compare u b hb [] l hl ⟨.empty, none⟩ hstart
  obtain ⟨-, hclean⟩ := diff_compare hl hg hc
  have hempty : Clean ⟨.empty, none⟩ := by
    intro x hx
    simp [ConfigDiff.marks, ConfigDiff.empty] at hx
  rw [is_empty_iff_clean]
  exact hclean.trans (and_iff_right hempty)

end CiscoCompare
