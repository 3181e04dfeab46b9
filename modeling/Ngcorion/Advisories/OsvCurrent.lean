import Ngcorion.Advisories.OsvSync

/-!
# What the runs of the advisory update keep

After a run the rows of every tracked release are those of the current records,
as long as no record was changed in the second of the cut-off.
-/
namespace OsvCurrent

open Text FirstBy Transition OsvRecords OsvSync

/-! ## The loader -/

theorem flatten_slices {α : Type} {size : Nat} (hsize : 0 < size) (l : List α) : (slices size l).flatten = l := by
  have htake : ∀ n, ((List.range n).map (fun k => (l.drop (size * k)).take size)).flatten = l.take (size * n) := by
    intro n
    induction n with
    | zero => simp
    | succ n ih =>
      rw [List.range_succ, List.map_append, List.flatten_append, ih, Nat.mul_succ, List.take_add]
      simp
  rw [slices, htake, List.take_of_length_le]
  have hdiv := Nat.lt_mul_div_succ (l.length - 1) hsize
  by_cases hzero : l.length = 0
  · omega
  · have hcount : (l.length + size - 1) / size = (l.length - 1) / size + 1 := by
      rw [show l.length + size - 1 = (l.length - 1) + size by omega, Nat.add_div_right _ hsize]
    rw [hcount]
    omega

theorem add_nil (cfg : Settings) (l : Loader) : l.add cfg [] = l := by simp [Loader.add, firstBy]

theorem add_add (cfg : Settings) (l : Loader) (a b : List Row) : (l.add cfg a).add cfg b = l.add cfg (a ++ b) := by
  simp [Loader.add, firstBy_append]

theorem foldl_add {α : Type} (cfg : Settings) (f : α → List Row) (xs : List α) (l : Loader) :
    xs.foldl (fun l x => l.add cfg (f x)) l = l.add cfg (xs.flatMap f) := by
  induction xs generalizing l with
  | nil => simp [add_nil]
  | cons x xs ih => rw [List.foldl_cons, ih, add_add, List.flatMap_cons]

/-- Different rows have different hashes. -/
def Separated (cfg : Settings) (rows : List Row) : Prop :=
  ∀ x ∈ rows, ∀ y ∈ rows, cfg.hashRow x = cfg.hashRow y → x = y

theorem mem_written {cfg : Settings} {rows : List Row} (h : Separated cfg rows) (row : Row) :
    row ∈ firstBy cfg.hashRow [] rows ↔ row ∈ rows := by
  constructor
  · exact fun hrow => (mem_of_mem_firstBy hrow).1
  · exact fun hrow => mem_firstBy hrow (by simp) (fun b hb hhash => h b hb row hrow hhash)

theorem nodup_written (cfg : Settings) (rows : List Row) : (firstBy cfg.hashRow [] rows).Nodup :=
  (nodup_firstBy [] rows).of_map

/-! ## Changed records -/

/-- The rows of records, for some releases. -/
def rowsOf (cfg : Settings) (records : List Record) (rels : List Release) : List Row :=
  records.flatMap (fun rec => rowsFrom cfg.tables rec (some rels))

theorem mem_rowsOf {cfg : Settings} {records : List Record} {rels : List Release} {row : Row} :
    row ∈ rowsOf cfg records rels ↔ row.release ∈ rels ∧ ∃ rec ∈ records, row ∈ rowsFrom cfg.tables rec none := by
  simp only [rowsOf, List.mem_flatMap, mem_rowsFrom_wanted]
  constructor
  · rintro ⟨rec, hrec, hrow, hrel⟩
    exact ⟨hrel, rec, hrec, hrow⟩
  · rintro ⟨hrel, rec, hrec, hrow⟩
    exact ⟨rec, hrec, hrow, hrel⟩

def kept (ids : List Str) (rels : List Release) (table : List Row) : List Row :=
  table.filter (fun row => ¬ (row.recordId ∈ ids ∧ row.release ∈ rels))

theorem kept_append (ids : List Str) (rels : List Release) (a b : List Row) :
    kept ids rels (a ++ b) = kept ids rels a ++ kept ids rels b := List.filter_append _ _

theorem find_some {e : Ecosystem} {id : Str} {rec : Record} (h : e.find id = some rec) :
    rec ∈ e.records ∧ rec.id = id := ⟨List.mem_of_find?_eq_some h, by simpa using List.find?_some h⟩

theorem find_of_mem {e : Ecosystem} {rec : Record} (h : rec ∈ e.records) : e.find rec.id = some rec := by
  cases hfind : e.find rec.id with
  | none =>
    have := List.find?_eq_none.mp hfind rec h
    simp at this
  | some other =>
    obtain ⟨hmem, hid⟩ := find_some hfind
    exact congrArg some (List.inj_on_of_nodup_map e.ids hmem h hid)

/-- The rows of fetched records have the ids that were fetched. -/
theorem id_of_fetched {cfg : Settings} {e : Ecosystem} {rels : List Release}
    (hids : ∀ rec ∈ e.records, rec.id.length ≤ 80) {ids : List Str} {row : Row}
    (h : row ∈ rowsOf cfg (ids.filterMap e.find) rels) : row.recordId ∈ ids := by
  obtain ⟨-, rec, hrec, hrow⟩ := mem_rowsOf.mp h
  obtain ⟨id, hid, hfind⟩ := List.mem_filterMap.mp hrec
  obtain ⟨hmem, rfl⟩ := find_some hfind
  rw [(of_mem_rowsFrom hrow).1, List.take_of_length_le (hids rec hmem)]
  exact hid

/-- All chunks together are one deletion and one load. -/
theorem chunks_eq {cfg : Settings} {e : Ecosystem} {rels : List Release} (hids : ∀ rec ∈ e.records, rec.id.length ≤ 80)
    (chunks : List (List Str)) (hnodup : chunks.flatten.Nodup) {l l' : Loader}
    (h : chunks.foldlM (loadChunk cfg e rels) l = some l') :
    l' = (⟨kept chunks.flatten rels l.table, l.added⟩ : Loader).add cfg
      (rowsOf cfg (chunks.flatten.filterMap e.find) rels) := by
  induction chunks generalizing l with
  | nil =>
    simp only [List.foldlM_nil, Option.pure_def, Option.some.injEq] at h
    subst h
    simp [kept, rowsOf, add_nil]
  | cons chunk chunks ih =>
    simp only [List.foldlM_cons, Option.bind_eq_bind, Option.bind_eq_some_iff] at h
    obtain ⟨l₁, h₁, h⟩ := h
    simp only [List.flatten_cons, List.nodup_append] at hnodup
    obtain ⟨-, hrest, hdisjoint⟩ := hnodup
    unfold loadChunk at h₁
    split at h₁
    · simp at h₁
    · simp only [Option.some.injEq] at h₁
      rw [foldl_add] at h₁
      rw [ih hrest h, ← h₁]
      -- What the first chunk has written has ids that the others do not delete.
      have hnew : ∀ new, (∀ row ∈ new, row.recordId ∈ chunk) → kept chunks.flatten rels new = new := by
        intro new hnew
        refine List.filter_eq_self.mpr ?_
        intro row hrow
        have hid : row.recordId ∉ chunks.flatten := fun hlater => hdisjoint _ (hnew row hrow) _ hlater rfl
        simp [hid]
      have hboth : ∀ table, kept chunks.flatten rels (kept chunk rels table) =
          kept (chunk ++ chunks.flatten) rels table := by
        intro table
        unfold kept
        rw [List.filter_filter]
        congr 1
        funext row
        simp only [List.mem_append]
        grind
      have hwritten : ∀ row ∈ firstBy cfg.hashRow (l.added.map cfg.hashRow) (rowsOf cfg (chunk.filterMap e.find) rels),
          row.recordId ∈ chunk := fun row hrow => id_of_fetched hids (mem_of_mem_firstBy hrow).1
      have hrows : rowsOf cfg ((chunk ++ chunks.flatten).filterMap e.find) rels =
          rowsOf cfg (chunk.filterMap e.find) rels ++ rowsOf cfg (chunks.flatten.filterMap e.find) rels := by
        simp [rowsOf, List.filterMap_append]
      rw [List.flatten_cons, hrows, ← add_add]
      have htable : (⟨kept chunk rels l.table, l.added⟩ : Loader).add cfg (rowsOf cfg (chunk.filterMap e.find) rels) =
          ⟨kept chunk rels l.table ++ firstBy cfg.hashRow (l.added.map cfg.hashRow)
            (rowsOf cfg (chunk.filterMap e.find) rels), l.added ++ firstBy cfg.hashRow (l.added.map cfg.hashRow)
            (rowsOf cfg (chunk.filterMap e.find) rels)⟩ := rfl
      change (⟨kept chunks.flatten rels ((⟨kept chunk rels l.table, l.added⟩ : Loader).add cfg
        (rowsOf cfg (chunk.filterMap e.find) rels)).table, _⟩ : Loader).add cfg _ = _
      rw [htable, kept_append, hboth, hnew _ hwritten]
      rfl

/-- In a list that is newest first the records before the first old one are all the recent ones. -/
theorem mem_takeWhile_recent {records : List Record} (hsorted : records.Pairwise (fun a b => b.modified ≤ a.modified))
    (since : Nat) (rec : Record) :
    rec ∈ records.takeWhile (fun r => since < dt r.modified) ↔ rec ∈ records ∧ since < dt rec.modified := by
  induction records with
  | nil => simp
  | cons r records ih =>
    obtain ⟨hfirst, hrest⟩ := List.pairwise_cons.mp hsorted
    by_cases hr : since < dt r.modified
    · rw [List.takeWhile_cons_of_pos (by simpa using hr), List.mem_cons, List.mem_cons, ih hrest]
      constructor
      · rintro (rfl | ⟨hmem, hrec⟩)
        · exact ⟨Or.inl rfl, hr⟩
        · exact ⟨Or.inr hmem, hrec⟩
      · rintro ⟨rfl | hmem, hrec⟩
        · exact Or.inl rfl
        · exact Or.inr ⟨hmem, hrec⟩
    · rw [List.takeWhile_cons_of_neg (by simpa using hr)]
      constructor
      · simp
      · rintro ⟨hmem, hrec⟩
        have hle : rec.modified ≤ r.modified := by
          rcases List.mem_cons.mp hmem with rfl | hmem
          · exact le_refl _
          · exact hfirst rec hmem
        have := dt_mono hle
        omega

/-- The records of the change list are the recent ones, each once. -/
theorem changedSince_spec {e : Ecosystem} (hids : ∀ rec ∈ e.records, strip rec.id = rec.id) {since limit : Nat}
    {changed : List (Nat × Str)} (h : changedSince e since limit = some changed) :
    (changed.map Prod.snd).Nodup ∧
      (∀ rec, rec ∈ (changed.map Prod.snd).filterMap e.find ↔ rec ∈ e.records ∧ since < dt rec.modified) ∧
      (∀ rec ∈ e.records, rec.id ∈ changed.map Prod.snd ↔ since < dt rec.modified) ∧
      ∀ when ∈ changed.map Prod.fst, ∃ rec ∈ e.records, when = dt rec.modified := by
  simp only [changedSince, List.takeWhile_map] at h
  split at h
  · simp at h
  · simp only [Option.some.injEq] at h
    subst h
    let recent := e.records.takeWhile (fun r => since < dt r.modified)
    have hsub : ∀ r ∈ recent, r ∈ e.records := fun r hr => ((mem_takeWhile_recent e.newestFirst since r).mp hr).1
    have hsnd : ((recent.map (fun r => (dt r.modified, strip r.id))).reverse.map Prod.snd) =
        (recent.map Record.id).reverse := by
      rw [List.map_reverse, List.map_map]
      congr 1
      apply List.map_congr_left
      intro r hr
      exact hids r (hsub r hr)
    have hfst : ((recent.map (fun r => (dt r.modified, strip r.id))).reverse.map Prod.fst) =
        (recent.map (fun r => dt r.modified)).reverse := by
      rw [List.map_reverse, List.map_map]
      rfl
    change ((recent.map (fun r => (dt r.modified, strip r.id))).reverse.map Prod.snd).Nodup ∧ _
    have hmem : ∀ rec ∈ e.records, rec.id ∈ recent.map Record.id ↔ since < dt rec.modified := by
      intro rec hrec
      constructor
      · intro hid
        obtain ⟨r, hr, hsame⟩ := List.mem_map.mp hid
        have heq := List.inj_on_of_nodup_map e.ids (hsub r hr) hrec hsame
        exact heq ▸ ((mem_takeWhile_recent e.newestFirst since r).mp hr).2
      · intro hnew
        exact List.mem_map.mpr ⟨rec, (mem_takeWhile_recent e.newestFirst since rec).mpr ⟨hrec, hnew⟩, rfl⟩
    refine ⟨?_, ?_, ?_, ?_⟩
    · rw [hsnd, List.nodup_reverse]
      exact e.ids.sublist ((List.takeWhile_sublist _).map _)
    · intro rec
      change rec ∈ (((recent.map (fun r => (dt r.modified, strip r.id))).reverse.map Prod.snd).filterMap e.find) ↔ _
      rw [hsnd]
      simp only [List.mem_filterMap, List.mem_reverse]
      constructor
      · rintro ⟨id, hid, hfind⟩
        obtain ⟨hrec, rfl⟩ := find_some hfind
        exact ⟨hrec, (hmem rec hrec).mp hid⟩
      · rintro ⟨hrec, hnew⟩
        exact ⟨rec.id, (hmem rec hrec).mpr hnew, find_of_mem hrec⟩
    · intro rec hrec
      change rec.id ∈ ((recent.map (fun r => (dt r.modified, strip r.id))).reverse.map Prod.snd) ↔ _
      rw [hsnd, List.mem_reverse]
      exact hmem rec hrec
    · intro when hwhen
      change when ∈ ((recent.map (fun r => (dt r.modified, strip r.id))).reverse.map Prod.fst) at hwhen
      rw [hfst, List.mem_reverse] at hwhen
      obtain ⟨r, hr, rfl⟩ := List.mem_map.mp hwhen
      exact ⟨r, hsub r hr, rfl⟩

/-! ## Watermarks -/

theorem refreshCounts_table (watermark : Option Nat) (isFull : Bool) (n : Nat) (s : Store) (r : Release) :
    (refreshCounts watermark isFull n s r).table = s.table := rfl

theorem watermarkOf_refresh {watermark : Option Nat} {isFull : Bool} {n : Nat} {s : Store} {r r' : Release} {w : Nat}
    (h : watermarkOf (refreshCounts watermark isFull n s r) r' = some w) :
    watermarkOf s r' = some w ∨ r' = r ∧ watermark = some w := by
  simp only [watermarkOf, refreshCounts, Dict.get_set] at h
  split at h
  · rename_i hr
    subst hr
    simp only [Option.map_some, Option.join_some] at h
    cases watermark with
    | none => exact Or.inl h
    | some new =>
      simp only at h
      split at h
      · exact Or.inr ⟨rfl, h⟩
      · exact Or.inl h
  · exact Or.inl h

/-- Counting again for a list of releases. -/
def refreshAll (watermark : Release → Option Nat) (isFull : Bool) (n : Release → Nat) (rels : List Release) (s : Store) :
    Store := rels.foldl (fun s r => refreshCounts (watermark r) isFull (n r) s r) s

theorem refreshAll_table (watermark : Release → Option Nat) (isFull : Bool) (n : Release → Nat) (rels : List Release)
    (s : Store) : (refreshAll watermark isFull n rels s).table = s.table := by
  induction rels generalizing s with
  | nil => rfl
  | cons r rels ih =>
    unfold refreshAll at ih ⊢
    rw [List.foldl_cons, ih, refreshCounts_table]

theorem watermarkOf_refreshAll {watermark : Release → Option Nat} {isFull : Bool} {n : Release → Nat}
    {rels : List Release} {s : Store} {r : Release} {w : Nat}
    (h : watermarkOf (refreshAll watermark isFull n rels s) r = some w) :
    watermarkOf s r = some w ∨ watermark r = some w := by
  induction rels generalizing s with
  | nil => exact Or.inl h
  | cons q rels ih =>
    unfold refreshAll at ih h
    rw [List.foldl_cons] at h
    rcases ih h with h | h
    · rcases watermarkOf_refresh h with h | ⟨rfl, h⟩
      · exact Or.inl h
      · exact Or.inr h
    · exact Or.inr h

theorem get_refreshAll {watermark : Release → Option Nat} {isFull : Bool} {n : Release → Nat} {rels : List Release}
    {s : Store} {r : Release} (hr : r ∉ rels) :
    Dict.get (refreshAll watermark isFull n rels s).feeds r = Dict.get s.feeds r := by
  induction rels generalizing s with
  | nil => rfl
  | cons q rels ih =>
    unfold refreshAll at ih ⊢
    simp only [List.mem_cons, not_or] at hr
    rw [List.foldl_cons, ih hr.2]
    simp [refreshCounts, Dict.get_set, Ne.symm hr.1]

/-! ## A full load -/

/-- The rows and the state of a release are as they were. -/
def SameRelease (r : Release) (s s' : Store) : Prop :=
  ofRelease r s'.table = ofRelease r s.table ∧ Dict.get s'.feeds r = Dict.get s.feeds r

theorem SameRelease.trans {r : Release} {s₁ s₂ s₃ : Store} (h : SameRelease r s₁ s₂) (h' : SameRelease r s₂ s₃) :
    SameRelease r s₁ s₃ := ⟨h'.1.trans h.1, h'.2.trans h.2⟩

theorem ofRelease_append (r : Release) (a b : List Row) : ofRelease r (a ++ b) = ofRelease r a ++ ofRelease r b :=
  List.filter_append _ _

theorem mem_ofRelease {r : Release} {table : List Row} {row : Row} :
    row ∈ ofRelease r table ↔ row ∈ table ∧ row.release = r := by simp [ofRelease]

/-- Rows that are written for other releases. -/
theorem ofRelease_written {cfg : Settings} {records : List Record} {rels : List Release} {r : Release} (hr : r ∉ rels) :
    ofRelease r (firstBy cfg.hashRow [] (rowsOf cfg records rels)) = [] := by
  refine List.filter_eq_nil_iff.mpr ?_
  intro row hrow
  have hrel := (mem_rowsOf.mp (mem_of_mem_firstBy hrow).1).1
  have hne : row.release ≠ r := by
    rintro rfl
    exact hr hrel
  simpa using hne

theorem full_eq (cfg : Settings) (archive : List Record) (rels : List Release) (s : Store) :
    ∃ watermark n, full cfg archive rels s = refreshAll watermark true n rels
        ⟨s.table.filter (fun row => row.release ∉ rels) ++ firstBy cfg.hashRow [] (rowsOf cfg (iterZip archive) rels),
          s.feeds⟩ ∧
      ∀ r w, watermark r = some w → ∃ rec ∈ iterZip archive, w = dt rec.modified := by
  let l : Loader := (⟨s.table.filter (fun row => row.release ∉ rels), []⟩ : Loader).add cfg
    (rowsOf cfg (iterZip archive) rels)
  refine ⟨l.watermark, fun r => (l.records r).length, ?_, ?_⟩
  · simp only [full, foldl_add]
    rfl
  · intro r w hw
    have hmem : w ∈ (l.added.filter (fun row => row.release = r)).map Row.modified := List.max?_mem hw
    obtain ⟨row, hrow, rfl⟩ := List.mem_map.mp hmem
    have hadded : row ∈ rowsOf cfg (iterZip archive) rels :=
      (mem_of_mem_firstBy (List.mem_of_mem_filter hrow : row ∈ firstBy cfg.hashRow _ _)).1
    obtain ⟨-, rec, hrec, hfrom⟩ := mem_rowsOf.mp hadded
    exact ⟨rec, hrec, (of_mem_rowsFrom hfrom).2⟩

theorem full_same {cfg : Settings} {archive : List Record} {rels : List Release} {s : Store} {r : Release}
    (hr : r ∉ rels) : SameRelease r s (full cfg archive rels s) := by
  obtain ⟨watermark, n, heq, -⟩ := full_eq cfg archive rels s
  rw [heq]
  refine ⟨?_, get_refreshAll hr⟩
  rw [refreshAll_table, ofRelease_append, ofRelease_written hr, List.append_nil]
  unfold ofRelease
  rw [List.filter_filter]
  congr 1
  funext row
  by_cases hrow : row.release = r <;> simp [hrow, hr]

/-- A release is current: its rows are those of the records, and its watermark
is not beyond them. -/
structure Current (cfg : Settings) (records : List Record) (r : Release) (s : Store) : Prop where
  rows : Matches cfg.tables records r s.table
  watermark : ∀ w, watermarkOf s r = some w → ∃ rec ∈ records, w ≤ dt rec.modified

theorem Current.congr {cfg : Settings} {records : List Record} {r : Release} {s s' : Store}
    (h : Current cfg records r s) (hsame : SameRelease r s s') : Current cfg records r s' where
  rows := by
    unfold Matches
    rw [hsame.1]
    exact h.rows
  watermark := by
    unfold watermarkOf
    rw [hsame.2]
    exact h.watermark

theorem full_current {cfg : Settings} {archive records : List Record} (hperm : archive.Perm records)
    (hsizes : ∀ rec ∈ records, rec.size ≤ maxRecordBytes) {rels : List Release}
    (hsep : Separated cfg (rowsOf cfg records rels)) {s : Store} {r : Release} (hr : r ∈ rels)
    (hold : ∀ w, watermarkOf s r = some w → ∃ rec ∈ records, w ≤ dt rec.modified) :
    Current cfg records r (full cfg archive rels s) := by
  obtain ⟨watermark, n, heq, hwatermark⟩ := full_eq cfg archive rels s
  have hzip : iterZip archive = archive := by
    refine List.filter_eq_self.mpr ?_
    intro rec hrec
    simpa using hsizes rec (hperm.mem_iff.mp hrec)
  rw [hzip] at heq hwatermark
  have hrows : ∀ row, row ∈ rowsOf cfg archive rels ↔ row ∈ rowsOf cfg records rels := by
    intro row
    simp only [mem_rowsOf, hperm.mem_iff]
  have hsep' : Separated cfg (rowsOf cfg archive rels) := by
    intro x hx y hy
    exact hsep x ((hrows x).mp hx) y ((hrows y).mp hy)
  have htable : ofRelease r (full cfg archive rels s).table =
      ofRelease r (firstBy cfg.hashRow [] (rowsOf cfg archive rels)) := by
    rw [heq, refreshAll_table, ofRelease_append]
    have hnone : ofRelease r (s.table.filter (fun row => row.release ∉ rels)) = [] := by
      refine List.filter_eq_nil_iff.mpr ?_
      intro row hrow
      have hout : row.release ∉ rels := by simpa using (List.mem_filter.mp hrow).2
      simpa using fun hrel : row.release = r => hout (hrel ▸ hr)
    rw [hnone, List.nil_append]
  constructor
  · refine ⟨?_, ?_⟩
    · rw [htable]
      exact (nodup_written cfg _).filter _
    · intro row
      rw [htable, mem_ofRelease, mem_written hsep', hrows, mem_rowsOf]
      constructor
      · rintro ⟨⟨-, hfrom⟩, hrel⟩
        exact ⟨hrel, hfrom⟩
      · rintro ⟨rfl, hfrom⟩
        exact ⟨⟨hr, hfrom⟩, rfl⟩
  · intro w hw
    rw [heq] at hw
    rcases watermarkOf_refreshAll hw with hw | hw
    · exact hold w hw
    · obtain ⟨rec, hrec, rfl⟩ := hwatermark r w hw
      exact ⟨rec, hperm.mem_iff.mp hrec, le_refl _⟩

/-! ## An incremental load -/

theorem incremental_eq {cfg : Settings} {e : Ecosystem} {rels : List Release}
    (hids : ∀ rec ∈ e.records, rec.id.length ≤ 80) {changed : List (Nat × Str)} (hnodup : (changed.map Prod.snd).Nodup)
    {s s' : Store} (h : incremental cfg e rels changed s = some s') :
    s' = refreshAll (fun _ => (changed.map Prod.fst).max?) false (fun _ => changed.length) rels
      ⟨kept (changed.map Prod.snd) rels s.table ++
        firstBy cfg.hashRow [] (rowsOf cfg ((changed.map Prod.snd).filterMap e.find) rels), s.feeds⟩ := by
  simp only [incremental, Option.bind_eq_bind, Option.bind_eq_some_iff, Option.some.injEq] at h
  obtain ⟨l, hl, rfl⟩ := h
  have hflat : (slices 200 (changed.map Prod.snd)).flatten = changed.map Prod.snd := flatten_slices (by omega) _
  have hload := chunks_eq hids _ (by rw [hflat]; exact hnodup) hl
  rw [hflat] at hload
  rw [hload]
  rfl

theorem incremental_same {cfg : Settings} {e : Ecosystem} {rels : List Release}
    (hids : ∀ rec ∈ e.records, rec.id.length ≤ 80) {changed : List (Nat × Str)} (hnodup : (changed.map Prod.snd).Nodup)
    {s s' : Store} (h : incremental cfg e rels changed s = some s') {r : Release} (hr : r ∉ rels) :
    SameRelease r s s' := by
  rw [incremental_eq hids hnodup h]
  refine ⟨?_, get_refreshAll hr⟩
  rw [refreshAll_table, ofRelease_append, ofRelease_written hr, List.append_nil]
  unfold ofRelease kept
  rw [List.filter_filter]
  congr 1
  funext row
  by_cases hrow : row.release = r <;> simp [hrow, hr]

/-- How the records of a feed have changed since the last run. -/
structure Changed (synced : List Record) (e : Ecosystem) : Prop where
  ids : (synced.map Record.id).Nodup
  short : ∀ rec ∈ synced, rec.id.length ≤ 80
  later : ∀ rec ∈ e.records, rec ∉ synced → ∀ old ∈ synced, old.modified ≤ rec.modified
  stays : ∀ old ∈ synced, ∃ rec ∈ e.records, rec.id = old.id ∧ old.modified ≤ rec.modified

theorem Changed.bound {synced : List Record} {e : Ecosystem} (h : Changed synced e) {w : Nat}
    (hw : ∃ old ∈ synced, w ≤ dt old.modified) : ∃ rec ∈ e.records, w ≤ dt rec.modified := by
  obtain ⟨old, hold, hle⟩ := hw
  obtain ⟨rec, hrec, -, hmodified⟩ := h.stays old hold
  exact ⟨rec, hrec, le_trans hle (dt_mono hmodified)⟩

/-- The records that are not in the change list are those of the last run. -/
theorem old_of_unchanged {synced : List Record} {e : Ecosystem} (h : Changed synced e) {since : Nat}
    (hsince : ∃ old ∈ synced, since ≤ dt old.modified)
    (hsecond : ∀ rec ∈ e.records, rec ∉ synced → dt rec.modified ≠ since) {rec : Record} (hrec : rec ∈ e.records)
    (hnot : ¬ since < dt rec.modified) : rec ∈ synced := by
  by_contra hnew
  obtain ⟨old, hold, hle⟩ := hsince
  have hlater := dt_mono (h.later rec hrec hnew old hold)
  have hne := hsecond rec hrec hnew
  omega

theorem incremental_current {cfg : Settings} {e : Ecosystem} {rels : List Release} {synced : List Record}
    (hids : ∀ rec ∈ e.records, strip rec.id = rec.id ∧ rec.id.length ≤ 80) (hchanged : Changed synced e)
    (hsep : Separated cfg (rowsOf cfg e.records rels)) {since limit : Nat} {changed : List (Nat × Str)}
    (hlist : changedSince e since limit = some changed) (hsince : ∃ old ∈ synced, since ≤ dt old.modified)
    (hsecond : ∀ rec ∈ e.records, rec ∉ synced → dt rec.modified ≠ since) {s s' : Store}
    (h : incremental cfg e rels changed s = some s') {r : Release} (hr : r ∈ rels) (hold : Current cfg synced r s) :
    Current cfg e.records r s' := by
  have hshort : ∀ rec ∈ e.records, rec.id.length ≤ 80 := fun rec hrec => (hids rec hrec).2
  obtain ⟨hnodup, hfetched, hlisted, hwhen⟩ := changedSince_spec (fun rec hrec => (hids rec hrec).1) hlist
  have heq := incremental_eq hshort hnodup h
  let ids := changed.map Prod.snd
  let new := firstBy cfg.hashRow [] (rowsOf cfg (ids.filterMap e.find) rels)
  have htable : ofRelease r s'.table = ofRelease r (kept ids rels s.table) ++ ofRelease r new := by
    rw [heq, refreshAll_table, ofRelease_append]
  have hsep' : Separated cfg (rowsOf cfg (ids.filterMap e.find) rels) := by
    have hsub : ∀ row ∈ rowsOf cfg (ids.filterMap e.find) rels, row ∈ rowsOf cfg e.records rels := by
      intro row hrow
      obtain ⟨hrel, rec, hrec, hfrom⟩ := mem_rowsOf.mp hrow
      exact mem_rowsOf.mpr ⟨hrel, rec, ((hfetched rec).mp hrec).1, hfrom⟩
    intro x hx y hy
    exact hsep x (hsub x hx) y (hsub y hy)
  have hnew : ∀ row, row ∈ ofRelease r new ↔
      row.release = r ∧ ∃ rec ∈ e.records, since < dt rec.modified ∧ row ∈ rowsFrom cfg.tables rec none := by
    intro row
    rw [mem_ofRelease, mem_written hsep', mem_rowsOf]
    constructor
    · rintro ⟨⟨-, rec, hrec, hfrom⟩, hrel⟩
      obtain ⟨hrec, hlate⟩ := (hfetched rec).mp hrec
      exact ⟨hrel, rec, hrec, hlate, hfrom⟩
    · rintro ⟨rfl, rec, hrec, hlate, hfrom⟩
      exact ⟨⟨hr, rec, (hfetched rec).mpr ⟨hrec, hlate⟩, hfrom⟩, rfl⟩
  have hkept : ∀ row, row ∈ ofRelease r (kept ids rels s.table) ↔
      row.release = r ∧ ∃ rec ∈ e.records, ¬ since < dt rec.modified ∧ row ∈ rowsFrom cfg.tables rec none := by
    intro row
    simp only [mem_ofRelease, kept, List.mem_filter, decide_eq_true_eq]
    constructor
    · rintro ⟨⟨hrow, hout⟩, rfl⟩
      obtain ⟨-, old, holdmem, hfrom⟩ := (hold.rows.2 row).mp (mem_ofRelease.mpr ⟨hrow, rfl⟩)
      obtain ⟨rec, hrec, hid, -⟩ := hchanged.stays old holdmem
      have hrowid : row.recordId = rec.id := by
        rw [(of_mem_rowsFrom hfrom).1, List.take_of_length_le (hchanged.short old holdmem), hid]
      have hunlisted : ¬ since < dt rec.modified := by
        intro hlate
        exact hout ⟨hrowid ▸ (hlisted rec hrec).mpr hlate, hr⟩
      have hsame : rec = old := List.inj_on_of_nodup_map hchanged.ids
        (old_of_unchanged hchanged hsince hsecond hrec hunlisted) holdmem hid
      exact ⟨rfl, rec, hrec, hunlisted, hsame ▸ hfrom⟩
    · rintro ⟨rfl, rec, hrec, hunlisted, hfrom⟩
      have hrow := (hold.rows.2 row).mpr ⟨rfl, rec, old_of_unchanged hchanged hsince hsecond hrec hunlisted, hfrom⟩
      have hrowid : row.recordId = rec.id := by
        rw [(of_mem_rowsFrom hfrom).1, List.take_of_length_le (hshort rec hrec)]
      refine ⟨⟨(mem_ofRelease.mp hrow).1, ?_⟩, rfl⟩
      rintro ⟨hlist, -⟩
      exact hunlisted ((hlisted rec hrec).mp (hrowid ▸ hlist))
  constructor
  · refine ⟨?_, ?_⟩
    · rw [htable]
      refine List.nodup_append.mpr ⟨?_, (nodup_written cfg _).filter _, ?_⟩
      · have hcomm : ofRelease r (kept ids rels s.table) = kept ids rels (ofRelease r s.table) := List.filter_comm _ _ _
        rw [hcomm]
        exact hold.rows.1.filter _
      · rintro x hx y hy rfl
        obtain ⟨-, rec, hrec, hunlisted, hfrom⟩ := (hkept x).mp hx
        obtain ⟨-, rec', hrec', hlate, hfrom'⟩ := (hnew x).mp hy
        have hid : rec.id = rec'.id := by
          have hid₁ := (of_mem_rowsFrom hfrom).1
          have hid₂ := (of_mem_rowsFrom hfrom').1
          rw [List.take_of_length_le (hshort rec hrec)] at hid₁
          rw [List.take_of_length_le (hshort rec' hrec')] at hid₂
          rw [← hid₁, hid₂]
        have := List.inj_on_of_nodup_map e.ids hrec hrec' hid
        exact hunlisted (this ▸ hlate)
    · intro row
      rw [htable, List.mem_append, hkept, hnew]
      constructor
      · rintro (⟨hrel, rec, hrec, -, hfrom⟩ | ⟨hrel, rec, hrec, -, hfrom⟩)
        · exact ⟨hrel, rec, hrec, hfrom⟩
        · exact ⟨hrel, rec, hrec, hfrom⟩
      · rintro ⟨hrel, rec, hrec, hfrom⟩
        by_cases hlate : since < dt rec.modified
        · exact Or.inr ⟨hrel, rec, hrec, hlate, hfrom⟩
        · exact Or.inl ⟨hrel, rec, hrec, hlate, hfrom⟩
  · intro w hw
    rw [heq] at hw
    rcases watermarkOf_refreshAll hw with hw | hw
    · exact hchanged.bound (hold.watermark w hw)
    · obtain ⟨rec, hrec, rfl⟩ := hwhen w (List.max?_mem hw)
      exact ⟨rec, hrec, le_refl _⟩

/-! ## A run -/

theorem Separated.subset {cfg : Settings} {records : List Record} {rels rels' : List Release}
    (h : Separated cfg (rowsOf cfg records rels)) (hsub : ∀ r ∈ rels', r ∈ rels) :
    Separated cfg (rowsOf cfg records rels') := by
  have hrows : ∀ row ∈ rowsOf cfg records rels', row ∈ rowsOf cfg records rels := by
    intro row hrow
    obtain ⟨hrel, hfrom⟩ := mem_rowsOf.mp hrow
    exact mem_rowsOf.mpr ⟨hsub _ hrel, hfrom⟩
  intro x hx y hy
  exact h x (hrows x hx) y (hrows y hy)

/-- The ids are short and have no blanks around them, no record is larger than
allowed, no two rows have one hash, and no record changed since the last run has
a time in the second of the cut-off. -/
structure Clean (cfg : Settings) (e : Ecosystem) (synced : List Record) (rels : List Release) (s : Store) : Prop where
  ids : ∀ rec ∈ e.records, strip rec.id = rec.id ∧ rec.id.length ≤ 80
  sizes : ∀ rec ∈ e.records, rec.size ≤ maxRecordBytes
  hashes : Separated cfg (rowsOf cfg e.records rels)
  second : ∀ since, cutOff s rels = some since → ∀ rec ∈ e.records, rec ∉ synced → dt rec.modified ≠ since

theorem cutOff_none {s : Store} {rels : List Release} (h : cutOff s rels = none) {r : Release} (hr : r ∈ rels) :
    watermarkOf s r = none := by
  have hempty := List.min?_eq_none_iff.mp h
  exact List.filterMap_eq_nil_iff.mp hempty r hr

theorem cutOff_some {s : Store} {rels : List Release} {since : Nat} (h : cutOff s rels = some since) :
    ∃ r ∈ rels, watermarkOf s r = some since := List.mem_filterMap.mp (List.min?_mem h)

section Top

variable {cfg : Settings} {e : Ecosystem} {archive synced : List Record} {rels : List Release} {s s' : Store}

theorem onlineTop_current (hperm : archive.Perm e.records) (hclean : Clean cfg e synced rels s)
    (hchanged : Changed synced e) (hbefore : ∀ r ∈ rels, watermarkOf s r ≠ none → Current cfg synced r s)
    (h : onlineTop cfg e archive rels s = some s') :
    (∀ r ∈ rels, Current cfg e.records r s') ∧ ∀ r ∉ rels, SameRelease r s s' := by
  have hwatermark : ∀ r ∈ rels, ∀ w, watermarkOf s r = some w → ∃ rec ∈ e.records, w ≤ dt rec.modified := by
    intro r hr w hw
    exact hchanged.bound ((hbefore r hr (by simp [hw])).watermark w hw)
  have hunloaded : ∀ r ∈ unloaded s rels, r ∈ rels := fun r hr => List.mem_of_mem_filter hr
  have hloaded : ∀ r ∈ loaded s rels, r ∈ rels := fun r hr => List.mem_of_mem_filter hr
  have hfull : ∀ some_rels : List Release, (∀ r ∈ some_rels, r ∈ rels) → ∀ r ∈ some_rels,
      Current cfg e.records r (full cfg archive some_rels s) := fun some_rels hsub r hr =>
    full_current hperm hclean.sizes (hclean.hashes.subset hsub) hr (hwatermark r (hsub r hr))
  unfold onlineTop at h
  split at h
  · -- Nothing was loaded before.
    rename_i hcut
    cases h
    refine ⟨?_, fun r hr => full_same (fun hmem => hr (hunloaded r hmem))⟩
    intro r hr
    exact hfull _ hunloaded r (List.mem_filter.mpr ⟨hr, by simp [cutOff_none hcut hr]⟩)
  · rename_i since hcut
    split at h
    · -- Too much has changed: everything is loaded again.
      cases h
      have hall : ∀ r ∈ unloaded s rels ++ loaded s rels, r ∈ rels := by
        intro r hr
        exact (List.mem_append.mp hr).elim (hunloaded r) (hloaded r)
      refine ⟨?_, fun r hr => full_same (fun hmem => hr (hall r hmem))⟩
      intro r hr
      refine hfull _ hall r (List.mem_append.mpr ?_)
      by_cases hnone : watermarkOf s r = none
      · exact Or.inl (List.mem_filter.mpr ⟨hr, by simp [hnone]⟩)
      · exact Or.inr (List.mem_filter.mpr ⟨hr, by simp [hnone]⟩)
    · rename_i changed hlist
      simp only [Option.bind_eq_bind, Option.bind_eq_some_iff, Option.some.injEq] at h
      obtain ⟨s₁, hinc, rfl⟩ := h
      have hnodup := (changedSince_spec (fun rec hrec => (hclean.ids rec hrec).1) hlist).1
      have hshort : ∀ rec ∈ e.records, rec.id.length ≤ 80 := fun rec hrec => (hclean.ids rec hrec).2
      have hsince : ∃ old ∈ synced, since ≤ dt old.modified := by
        obtain ⟨r, hr, hw⟩ := cutOff_some hcut
        exact (hbefore r hr (by simp [hw])).watermark since hw
      have hinc_same : ∀ r ∉ loaded s rels, SameRelease r s s₁ := fun r hr => incremental_same hshort hnodup hinc hr
      have hrest_same : ∀ r ∉ unloaded s rels,
          SameRelease r s₁ (if unloaded s rels = [] then s₁ else full cfg archive (unloaded s rels) s₁) := by
        intro r hr
        split
        · exact ⟨rfl, rfl⟩
        · exact full_same hr
      refine ⟨?_, ?_⟩
      · intro r hr
        by_cases hnone : watermarkOf s r = none
        · have hmem : r ∈ unloaded s rels := List.mem_filter.mpr ⟨hr, by simp [hnone]⟩
          have hnotloaded : r ∉ loaded s rels := fun hl => by simpa [hnone] using (List.mem_filter.mp hl).2
          rw [if_neg (List.ne_nil_of_mem hmem)]
          refine full_current hperm hclean.sizes (hclean.hashes.subset hunloaded) hmem ?_
          intro w hw
          rw [watermarkOf, (hinc_same r hnotloaded).2] at hw
          exact hwatermark r hr w hw
        · have hmem : r ∈ loaded s rels := List.mem_filter.mpr ⟨hr, by simp [hnone]⟩
          have hnotun : r ∉ unloaded s rels := fun hu => hnone (by simpa using (List.mem_filter.mp hu).2)
          have hcurrent := incremental_current hclean.ids hchanged (hclean.hashes.subset hloaded) hlist hsince
            (hclean.second since hcut) hinc hmem (hbefore r hr hnone)
          exact hcurrent.congr (hrest_same r hnotun)
      · intro r hr
        exact (hinc_same r (fun hl => hr (hloaded r hl))).trans (hrest_same r (fun hu => hr (hunloaded r hu)))

end Top

theorem Clean.congr {cfg : Settings} {e : Ecosystem} {synced : List Record} {rels : List Release} {s s' : Store}
    (h : Clean cfg e synced rels s) (hsame : ∀ r ∈ rels, SameRelease r s s') : Clean cfg e synced rels s' where
  ids := h.ids
  sizes := h.sizes
  hashes := h.hashes
  second := by
    have hcut : cutOff s' rels = cutOff s rels := by
      unfold cutOff
      congr 1
      refine List.filterMap_congr ?_
      intro r hr
      unfold watermarkOf
      rw [(hsame r hr).2]
    rw [hcut]
    exact h.second

theorem mem_relsOf {wanted : List Release} {d : Distro} {r : Release} :
    r ∈ relsOf wanted d ↔ r ∈ wanted ∧ r.distro = d := by simp [relsOf]

/-- One distribution after the other: a run only touches the releases of the
distribution it has come to. -/
theorem tops_current {cfg : Settings} {wanted : List Release} {world : Distro → Ecosystem}
    {archives synced : Distro → List Record} (ds : List Distro) (hds : ds.Nodup)
    (hperm : ∀ d ∈ ds, (archives d).Perm (world d).records) (hchanged : ∀ d ∈ ds, Changed (synced d) (world d))
    {s s' : Store} (hclean : ∀ d ∈ ds, Clean cfg (world d) (synced d) (relsOf wanted d) s)
    (hbefore : ∀ r ∈ wanted, r.distro ∈ ds → watermarkOf s r ≠ none → Current cfg (synced r.distro) r s)
    (h : ds.foldlM (fun s d => onlineTop cfg (world d) (archives d) (relsOf wanted d) s) s = some s') :
    (∀ r ∈ wanted, r.distro ∈ ds → Current cfg (world r.distro).records r s') ∧
      ∀ r, r.distro ∉ ds → SameRelease r s s' := by
  induction ds generalizing s with
  | nil =>
    simp only [List.foldlM_nil, Option.pure_def, Option.some.injEq] at h
    subst h
    exact ⟨by simp, fun r _ => ⟨rfl, rfl⟩⟩
  | cons d ds ih =>
    simp only [List.foldlM_cons, Option.bind_eq_bind, Option.bind_eq_some_iff] at h
    obtain ⟨s₁, h₁, h⟩ := h
    obtain ⟨hfirst, hrest⟩ := List.nodup_cons.mp hds
    obtain ⟨hcurrent, hsame⟩ := onlineTop_current (hperm d List.mem_cons_self) (hclean d List.mem_cons_self)
      (hchanged d List.mem_cons_self)
      (fun r hr => by
        obtain ⟨hwanted, rfl⟩ := mem_relsOf.mp hr
        exact hbefore r hwanted List.mem_cons_self) h₁
    have hother : ∀ r, r.distro ≠ d → SameRelease r s s₁ := fun r hr => hsame r (fun hmem => hr (mem_relsOf.mp hmem).2)
    have hne : ∀ r : Release, r.distro ∈ ds → r.distro ≠ d := by
      intro r hr heq
      exact hfirst (heq ▸ hr)
    obtain ⟨hlater, hlater_same⟩ := ih hrest (fun d' hd' => hperm d' (List.mem_cons_of_mem _ hd'))
      (fun d' hd' => hchanged d' (List.mem_cons_of_mem _ hd'))
      (fun d' hd' => (hclean d' (List.mem_cons_of_mem _ hd')).congr fun r hr =>
        hother r (hne r ((mem_relsOf.mp hr).2 ▸ hd')))
      (fun r hr hd' hw => by
        have hsame₁ := hother r (hne r hd')
        rw [watermarkOf, hsame₁.2] at hw
        exact (hbefore r hr (List.mem_cons_of_mem _ hd') hw).congr hsame₁) h
    refine ⟨?_, ?_⟩
    · intro r hr hmem
      rcases List.mem_cons.mp hmem with hd | hmem
      · have hr' : r ∈ relsOf wanted d := mem_relsOf.mpr ⟨hr, hd⟩
        rw [hd]
        exact (hcurrent r hr').congr (hlater_same r (hd ▸ hfirst))
      · exact hlater r hr hmem
    · intro r hr
      simp only [List.mem_cons, not_or] at hr
      exact (hother r hr.1).trans (hlater_same r hr.2)

theorem mem_tops {wanted : List Release} {d : Distro} : d ∈ tops wanted ↔ ∃ r ∈ wanted, r.distro = d := by
  constructor
  · intro h
    exact List.mem_map.mp (mem_of_mem_firstBy h).1
  · rintro ⟨r, hr, rfl⟩
    exact mem_firstBy (List.mem_map.mpr ⟨r, hr, rfl⟩) (by simp) (fun b _ hb => hb)

theorem nodup_tops (wanted : List Release) : (tops wanted).Nodup := by
  have hnodup : ((tops wanted).map id).Nodup := nodup_firstBy [] (wanted.map Release.distro)
  rwa [List.map_id] at hnodup

/-! ## Histories -/

/-- A run finds the feed clean. -/
def allowed (cfg : Settings) (wanted : List Release) (s : State) : Action → Prop
  | .publish _ _ => True
  | .online _ => ∀ d ∈ tops wanted, Clean cfg (s.world d) (s.synced d) (relsOf wanted d) s.store

structure Inv (cfg : Settings) (wanted : List Release) (s : State) : Prop where
  changed : ∀ d ∈ tops wanted, Changed (s.synced d) (s.world d)
  current : ∀ r ∈ wanted, watermarkOf s.store r ≠ none → Current cfg (s.synced r.distro) r s.store

theorem Changed.publish {synced : List Record} {e : Ecosystem} (h : Changed synced e) {rec : Record}
    (hlast : ∀ r ∈ e.records, r.modified ≤ rec.modified) : Changed synced (e.publish rec hlast) where
  ids := h.ids
  short := h.short
  later := by
    intro r hr hnew old hold
    rcases List.mem_cons.mp hr with rfl | hr
    · obtain ⟨r', hr', -, hle⟩ := h.stays old hold
      exact le_trans hle (hlast r' hr')
    · exact h.later r (List.mem_of_mem_filter hr) hnew old hold
  stays := by
    intro old hold
    obtain ⟨r, hr, hid, hle⟩ := h.stays old hold
    by_cases hsame : r.id = rec.id
    · exact ⟨rec, List.mem_cons_self, hsame ▸ hid, le_trans hle (hlast r hr)⟩
    · exact ⟨r, List.mem_cons_of_mem _ (List.mem_filter.mpr ⟨hr, by simpa using hsame⟩), hid, hle⟩

/-- A run brings every tracked release to the records of the feed. -/
theorem online_current {cfg : Settings} {wanted : List Release} {s s' : State} {archives : Distro → List Record}
    (hinv : Inv cfg wanted s) (hallowed : allowed cfg wanted s (.online archives))
    (h : step cfg wanted s (.online archives) = some s') :
    s'.world = s.world ∧ s'.synced = (fun d => (s.world d).records) ∧
      ∀ r ∈ wanted, Current cfg (s.world r.distro).records r s'.store := by
  simp only [step] at h
  split at h
  · rename_i hperm
    simp only [Option.map_eq_some_iff] at h
    obtain ⟨store, honline, rfl⟩ := h
    have hcurrent := (tops_current (tops wanted) (nodup_tops wanted) hperm hinv.changed hallowed
      (fun r hr _ => hinv.current r hr) honline).1
    exact ⟨rfl, rfl, fun r hr => hcurrent r hr (mem_tops.mpr ⟨r, hr, rfl⟩)⟩
  · simp at h

theorem inv_of_step {cfg : Settings} {wanted : List Release} {s s' : State} {a : Action} (hinv : Inv cfg wanted s)
    (hallowed : allowed cfg wanted s a) (h : step cfg wanted s a = some s') : Inv cfg wanted s' := by
  cases a with
  | publish d rec =>
    simp only [step] at h
    split at h
    · rename_i hlast
      cases h
      refine ⟨?_, hinv.current⟩
      intro d' hd'
      by_cases hd : d' = d
      · subst hd
        simpa using (hinv.changed d' hd').publish hlast
      · simpa [hd] using hinv.changed d' hd'
    · simp at h
  | online archives =>
    obtain ⟨hworld, hsynced, hcurrent⟩ := online_current hinv hallowed h
    constructor
    · intro d hd
      rw [hworld, hsynced]
      exact {
        ids := (s.world d).ids
        short := fun rec hrec => ((hallowed d hd).ids rec hrec).2
        later := fun rec hrec hnew => absurd hrec hnew
        stays := fun old hold => ⟨old, hold, rfl, le_refl _⟩ }
    · intro r hr _
      rw [hsynced]
      exact hcurrent r hr

theorem inv_begin (cfg : Settings) (wanted : List Release) (world : Distro → Ecosystem) (table : List Row) :
    Inv cfg wanted (begin world table) where
  changed := fun d _ => ⟨List.nodup_nil, by simp [begin], by simp [begin], by simp [begin]⟩
  current := fun r _ h => absurd rfl h

/-- After every run the rows of every tracked release are those of the current records. -/
theorem nothing_lost (cfg : Settings) (wanted : List Release) (world : Distro → Ecosystem) (table : List Row)
    {s s' : State} (hs : Reach (step cfg wanted) (allowed cfg wanted) (begin world table) s)
    {archives : Distro → List Record} (hallowed : allowed cfg wanted s (.online archives))
    (hrun : step cfg wanted s (.online archives) = some s') : UpToDate cfg wanted s' := by
  have hinv : Inv cfg wanted s := hs.invariant (inv_begin cfg wanted world table)
    fun _ _ _ hinv hallowed hstep => inv_of_step hinv hallowed hstep
  obtain ⟨hworld, -, hcurrent⟩ := online_current hinv hallowed hrun
  intro r hr
  rw [hworld]
  exact (hcurrent r hr).rows

instance (cfg : Settings) (rows : List Row) : Decidable (Separated cfg rows) :=
  inferInstanceAs (Decidable (∀ x ∈ rows, ∀ y ∈ rows, cfg.hashRow x = cfg.hashRow y → x = y))

instance (cfg : Settings) (e : Ecosystem) (synced : List Record) (rels : List Release) (s : Store) :
    Decidable (Clean cfg e synced rels s) :=
  decidable_of_iff ((∀ rec ∈ e.records, strip rec.id = rec.id ∧ rec.id.length ≤ 80) ∧
      (∀ rec ∈ e.records, rec.size ≤ maxRecordBytes) ∧ Separated cfg (rowsOf cfg e.records rels) ∧
      ∀ since ∈ (cutOff s rels).toList, ∀ rec ∈ e.records, rec ∉ synced → dt rec.modified ≠ since)
    ⟨fun ⟨ids, sizes, hashes, second⟩ => ⟨ids, sizes, hashes, fun since h => second since (by simp [h])⟩,
      fun h => ⟨h.ids, h.sizes, h.hashes, fun since hmem => h.second since (by simpa using hmem)⟩⟩

instance (cfg : Settings) (wanted : List Release) (s : State) (a : Action) : Decidable (allowed cfg wanted s a) :=
  match a with
  | .publish _ _ => inferInstanceAs (Decidable True)
  | .online _ => inferInstanceAs
      (Decidable (∀ d ∈ tops wanted, Clean cfg (s.world d) (s.synced d) (relsOf wanted d) s.store))

/-! ## A record changed in the second of the watermark -/

def code (s : Str) : Int := s.foldl (fun n c => n * 1114112 + c.toNat) 1

def settings : Settings where
  tables := ⟨Char.isDigit, Char.isAlphanum, List.map Char.toLower, fun _ => none⟩
  hash k := code (k.stream ++ ' ' :: k.package ++ ' ' :: k.recordId ++ ' ' :: k.fixed.getD [])
  incrementalLimit := 20000

/-- An advisory for one package of Debian 12. -/
def advisory (id package fixed : Str) (modified : Nat) : Record :=
  ⟨id, package, [], false, [], [], [], [], none, modified,
    [⟨lit "Debian:12", package, none, [⟨lit "ECOSYSTEM", [⟨some (lit "0"), none, none⟩, ⟨none, some fixed, none⟩]⟩]⟩], 900⟩

def curl : Record := advisory (lit "DSA-5001-1") (lit "curl") (lit "7.88.1-10") 10100000

def openssl (modified : Nat) : Record := advisory (lit "DSA-5002-1") (lit "openssl") (lit "3.0.9-1") modified

def firstDay : Distro → Ecosystem
  | .debian => ⟨[curl], by simp, by simp⟩
  | _ => ⟨[], by simp, by simp⟩

def bookworm : Release := ⟨.debian, lit "12"⟩

/-- All of Debian's records, in some order. -/
def debianArchive (records : List Record) : Distro → List Record
  | .debian => records
  | _ => []

/-- The first load, and a record published after it. -/
def untilPublished (modified : Nat) : List Action :=
  [.online (debianArchive [curl]), .publish .debian (openssl modified)]

def hasOpenssl (s : State) : Bool := s.store.table.any (fun row => row.package = lit "openssl")

/-- A record of the next second is loaded by the next run. -/
theorem next_second_loaded :
    ∃ s s' : State, Reach (step settings [bookworm]) (allowed settings [bookworm]) (begin firstDay []) s ∧
      allowed settings [bookworm] s (.online (debianArchive [openssl 11000000, curl])) ∧
      step settings [bookworm] s (.online (debianArchive [openssl 11000000, curl])) = some s' ∧
      hasOpenssl s' = true ∧ UpToDate settings [bookworm] s' := by
  let last : Action := .online (debianArchive [openssl 11000000, curl])
  have hrun : (run (fun s a => if decide (allowed settings [bookworm] s a) then step settings [bookworm] s a else none)
      (untilPublished 11000000) (begin firstDay [])).any
      (fun s => decide (allowed settings [bookworm] s last) && (step settings [bookworm] s last).any hasOpenssl) = true := by
    with_unfolding_all decide
  obtain ⟨s, hs, hlast⟩ := (Option.any_eq_true _ _).mp hrun
  simp only [Bool.and_eq_true, decide_eq_true_eq] at hlast
  obtain ⟨hallowed, hstep⟩ := hlast
  obtain ⟨s', hstep, hopenssl⟩ := (Option.any_eq_true _ _).mp hstep
  have hreach : Reach (step settings [bookworm]) (allowed settings [bookworm]) (begin firstDay []) s :=
    Reach.run (fun _ _ hok => by simpa using hok) _ .start hs
  exact ⟨s, s', hreach, hallowed, hstep, hopenssl,
    nothing_lost settings [bookworm] firstDay [] hreach hallowed hstep⟩

/-- A record of the same second is never loaded by an incremental run. -/
theorem same_second_lost :
    ∃ s s' : State, Reach (step settings [bookworm]) (fun _ _ => True) (begin firstDay []) s ∧
      step settings [bookworm] s (.online (debianArchive [openssl 10900000, curl])) = some s' ∧
      ¬ UpToDate settings [bookworm] s' := by
  let last : Action := .online (debianArchive [openssl 10900000, curl])
  have hrun : (run (fun s a => if true then step settings [bookworm] s a else none)
      (untilPublished 10900000) (begin firstDay [])).any (fun s => (step settings [bookworm] s last).any
        (fun s' => !hasOpenssl s' && (s'.world .debian).records.any (fun rec =>
          (rowsFrom settings.tables rec none).any (fun row => row.release = bookworm && row.package = lit "openssl")))) =
      true := by with_unfolding_all decide
  obtain ⟨s, hs, hlast⟩ := (Option.any_eq_true _ _).mp hrun
  obtain ⟨s', hstep, hs'⟩ := (Option.any_eq_true _ _).mp hlast
  simp only [Bool.and_eq_true, Bool.not_eq_true', List.any_eq_true, decide_eq_true_eq] at hs'
  obtain ⟨hmissing, rec, hrec, row, hrow, hrelease, hpackage⟩ := hs'
  refine ⟨s, s', Reach.run (fun _ _ _ => trivial) _ .start hs, hstep, ?_⟩
  intro hup
  have hpresent := ((hup bookworm (by simp)).2 row).mpr ⟨hrelease, rec, hrec, hrow⟩
  have : hasOpenssl s' = true :=
    List.any_eq_true.mpr ⟨row, (mem_ofRelease.mp hpresent).1, by simpa using hpackage⟩
  rw [hmissing] at this
  simp at this

end OsvCurrent
