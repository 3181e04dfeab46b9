import Ngcorion.Noc.Sweeps

/-!
# Recording the same reports again

A sweep that records what the sweep before it recorded finds the same neighbours on the
same ports, and so the same cables.
-/
namespace Again

open Text Serial Neighbors Links Sweeps

/-! ## The devices that were read -/

section Sources

variable {lib : Lib} {now : Nat} {reports : Reports} {errors : Errors} {sources : Sources} {asset : Nat}

def chassisOf (sources : Sources) (asset : Nat) : Option Str := (Dict.get sources asset).bind Source.chassisId

/-- The device is known by the chassis id that it reports. -/
def Known (reports : Reports) (sources : Sources) (asset : Nat) : Prop :=
  ∀ rep id, Dict.get reports asset = some rep → given rep.localChassisId = some id → chassisOf sources asset = some id

theorem chassisOf_noteSource (other : Nat) : chassisOf (noteSource now reports errors sources asset) other =
    if asset = other then
      ((Dict.get reports asset).bind (fun rep => given rep.localChassisId)).or (chassisOf sources asset)
    else chassisOf sources other := by
  unfold chassisOf noteSource
  rw [Dict.get_set]
  split
  · cases hget : Dict.get sources asset <;> cases hrep : Dict.get reports asset <;> simp [Source.read]
  · rfl

theorem known_noteSource : Known reports (noteSource now reports errors sources asset) asset := by
  intro rep id hrep hid
  rw [chassisOf_noteSource, if_pos rfl, hrep]
  simp [hid]

theorem Known.noteSource {other : Nat} (h : Known reports sources other) :
    Known reports (noteSource now reports errors sources asset) other := by
  by_cases heq : asset = other
  · rw [heq]
    exact known_noteSource
  · intro rep id hrep hid
    rw [chassisOf_noteSource, if_neg heq]
    exact h rep id hrep hid

theorem known_fold (assets : List Nat) (h : Known reports sources asset ∨ asset ∈ assets) :
    Known reports (assets.foldl (noteSource now reports errors) sources) asset := by
  induction assets generalizing sources with
  | nil => simpa using h
  | cons a assets ih =>
    apply ih
    rcases h with h | h
    · exact Or.inl h.noteSource
    · rcases List.mem_cons.mp h with rfl | h
      · exact Or.inl known_noteSource
      · exact Or.inr h

/-- After a sweep every device that reports is known by its chassis id. -/
theorem known_noteSources : Known reports (noteSources now reports errors sources) asset := by
  by_cases h : asset ∈ Dict.keys reports
  · exact known_fold _ (Or.inr (List.mem_append_left _ h))
  · intro rep id hrep
    rw [(Dict.get_eq_none _ _).mpr h] at hrep
    simp at hrep

theorem ownChassis_set {s : Source} (h : s.chassisId = chassisOf sources asset) :
    ownChassis lib (Dict.set sources asset s) = ownChassis lib sources := by
  induction sources with
  | nil =>
    have hnone : s.chassisId = none := h
    simp [ownChassis, Dict.set, hnone, given]
  | cons e sources ih =>
    obtain ⟨a, s'⟩ := e
    unfold Dict.set
    by_cases heq : a = asset
    · have hsame : s.chassisId = s'.chassisId := by simpa [chassisOf, Dict.get, heq] using h
      rw [if_pos heq, heq]
      simp only [ownChassis, List.filterMap_cons, hsame]
    · have hrest : s.chassisId = chassisOf sources asset := by simpa [chassisOf, Dict.get, heq] using h
      rw [if_neg heq]
      simp only [ownChassis, List.filterMap_cons] at ih ⊢
      rw [ih hrest]

theorem ownChassis_noteSource (h : Known reports sources asset) :
    ownChassis lib (noteSource now reports errors sources asset) = ownChassis lib sources := by
  apply ownChassis_set
  have hset : chassisOf (noteSource now reports errors sources asset) asset = chassisOf sources asset := by
    rw [chassisOf_noteSource, if_pos rfl]
    cases hrep : Dict.get reports asset with
    | none => simp
    | some rep =>
      cases hid : given rep.localChassisId with
      | none => simp [hid]
      | some id => simp [hid, h rep id hrep hid]
  rw [← hset]
  simp [chassisOf, noteSource, Dict.get_set]

/-- The devices are known already, so another sweep adds no chassis id. -/
theorem ownChassis_noteSources (h : ∀ asset, Known reports sources asset) :
    ownChassis lib (noteSources now reports errors sources) = ownChassis lib sources := by
  suffices hall : (∀ asset, Known reports (noteSources now reports errors sources) asset) ∧
      ownChassis lib (noteSources now reports errors sources) = ownChassis lib sources from hall.2
  refine List.foldlRecOn (motive := fun s => (∀ asset, Known reports s asset) ∧ ownChassis lib s = ownChassis lib sources)
    _ _ ⟨h, rfl⟩ ?_
  rintro s ⟨hknown, hown⟩ a -
  exact ⟨fun asset => (hknown asset).noteSource, (ownChassis_noteSource (hknown a)).trans hown⟩

theorem directory_again {site : Site} {errors' : Errors} {now' : Nat} :
    directory site (noteSources now' reports errors' (noteSources now reports errors sources)) =
      directory site (noteSources now reports errors sources) := by
  unfold directory
  rw [ownChassis_noteSources (fun _ => known_noteSources)]

end Sources

/-! ## The rows of the neighbours -/

section Rows

variable {lib : Lib} {now : Nat} {rows : List Row} {r : Row}

/-- The row of the same neighbour. -/
def SameNeighbor (r r' : Row) : Prop := r'.asset = r.asset ∧ r'.ident = r.ident

/-- What the device last said of the neighbour. -/
def lastOf (lib : Lib) (ns : List (Nat × Neighbor)) (r : Row) : Option Neighbor :=
  ((ns.filter (fun n => r.is n.1 (ident lib n.2))).getLast?).map Prod.snd

theorem lastOf_append (ns : List (Nat × Neighbor)) (n : Nat × Neighbor) (r : Row) : lastOf lib (ns ++ [n]) r =
    if r.is n.1 (ident lib n.2) then some n.2 else lastOf lib ns r := by
  unfold lastOf
  rw [List.filter_append]
  split
  · rename_i h
    simp [h]
  · rename_i h
    simp [h]

theorem lastOf_congr {r r' : Row} (h : SameNeighbor r r') (ns : List (Nat × Neighbor)) :
    lastOf lib ns r' = lastOf lib ns r := by
  simp only [lastOf, Row.is, h.1, h.2]

theorem mem_note {n : Nat × Neighbor} : r ∈ note lib now rows n ↔
    (∃ r₀ ∈ rows, r₀.is n.1 (ident lib n.2) = true ∧ r = r₀.write n.2 now) ∨
    (r ∈ rows ∧ r.is n.1 (ident lib n.2) = false) ∨
    ((∀ r₀ ∈ rows, r₀.is n.1 (ident lib n.2) = false) ∧ r = newRow lib n.1 now n.2) := by
  unfold note
  split
  · rename_i hany
    obtain ⟨r₁, hr₁, his₁⟩ := List.any_eq_true.mp hany
    constructor
    · intro hr
      obtain ⟨r₀, hr₀, rfl⟩ := List.mem_map.mp hr
      split
      · rename_i his
        exact Or.inl ⟨r₀, hr₀, his, rfl⟩
      · rename_i his
        exact Or.inr (Or.inl ⟨hr₀, by simpa using his⟩)
    · rintro (⟨r₀, hr₀, his, rfl⟩ | ⟨hr, his⟩ | ⟨hnone, -⟩)
      · exact List.mem_map.mpr ⟨r₀, hr₀, by rw [if_pos his]⟩
      · exact List.mem_map.mpr ⟨r, hr, by rw [if_neg (by simp [his])]⟩
      · simp [hnone r₁ hr₁] at his₁
  · rename_i hany
    have hnone : ∀ r₀ ∈ rows, r₀.is n.1 (ident lib n.2) = false := by simpa using hany
    rw [List.mem_append, List.mem_singleton]
    constructor
    · rintro (hr | hr)
      · exact Or.inr (Or.inl ⟨hr, hnone r hr⟩)
      · exact Or.inr (Or.inr ⟨hnone, hr⟩)
    · rintro (⟨r₀, hr₀, his, -⟩ | ⟨hr, -⟩ | ⟨-, hr⟩)
      · simp [hnone r₀ hr₀] at his
      · exact Or.inl hr
      · exact Or.inr hr

theorem is_iff {asset : Nat} {id : Str} : r.is asset id = true ↔ r.asset = asset ∧ r.ident = id := by
  simp [Row.is]

/-- A neighbour that has a row keeps one. -/
theorem note_same {n : Nat × Neighbor} {r₀ : Row} (h : ∃ r' ∈ rows, SameNeighbor r₀ r') :
    ∃ r' ∈ note lib now rows n, SameNeighbor r₀ r' := by
  obtain ⟨r', hr', hsame⟩ := h
  cases his : r'.is n.1 (ident lib n.2) with
  | true => exact ⟨_, mem_note.mpr (Or.inl ⟨r', hr', his, rfl⟩), hsame⟩
  | false => exact ⟨r', mem_note.mpr (Or.inr (Or.inl ⟨hr', his⟩)), hsame⟩

/-- A row of the sweep holds what the device last said, on the row of that neighbour where
there is one. -/
structure Holds (lib : Lib) (now : Nat) (rows : List Row) (r : Row) (n : Neighbor) : Prop where
  report : r.report = n.stored
  lastSeen : r.lastSeen = now
  before : (∃ r₀ ∈ rows, SameNeighbor r r₀ ∧ r₀.matched = r.matched) ∨ ∀ r₀ ∈ rows, ¬ SameNeighbor r r₀

theorem fold_same (ns : List (Nat × Neighbor)) {r₀ : Row} (h : r₀ ∈ rows) :
    ∃ r ∈ ns.foldl (note lib now) rows, SameNeighbor r₀ r := by
  refine List.foldlRecOn (motive := fun rs => ∃ r ∈ rs, SameNeighbor r₀ r) ns _ ⟨r₀, h, rfl, rfl⟩ ?_
  intro rs hrs n _
  exact note_same hrs

theorem mem_fold (ns : List (Nat × Neighbor)) {r : Row} (h : r ∈ ns.foldl (note lib now) rows) :
    (lastOf lib ns r = none ∧ r ∈ rows) ∨ ∃ n, lastOf lib ns r = some n ∧ Holds lib now rows r n := by
  induction ns using List.reverseRecOn generalizing r with
  | nil => exact Or.inl ⟨rfl, h⟩
  | append_singleton ns n ih =>
    rw [List.foldl_append, List.foldl_cons, List.foldl_nil] at h
    rw [lastOf_append]
    rcases mem_note.mp h with ⟨r₀, hr₀, his, rfl⟩ | ⟨hr, his⟩ | ⟨hnone, rfl⟩
    · refine Or.inr ⟨n.2, if_pos his, rfl, rfl, ?_⟩
      rcases ih hr₀ with ⟨-, hmem⟩ | ⟨m, -, hholds⟩
      · exact Or.inl ⟨r₀, hmem, ⟨rfl, rfl⟩, rfl⟩
      · exact hholds.before
    · rw [if_neg (by simp [his])]
      exact ih hr
    · refine Or.inr ⟨n.2, if_pos (is_iff.mpr ⟨rfl, rfl⟩), rfl, rfl, Or.inr ?_⟩
      intro r₀ hr₀ hsame
      obtain ⟨r', hr', hsame'⟩ := @fold_same lib now rows ns r₀ hr₀
      have his : r'.is n.1 (ident lib n.2) = true :=
        is_iff.mpr ⟨hsame'.1.trans hsame.1, hsame'.2.trans hsame.2⟩
      exact absurd (hnone r' hr') (by simp [his])

/-- Every neighbour that a device speaks of has a row afterwards. -/
theorem exists_fold (ns : List (Nat × Neighbor)) {r₀ : Row} {m : Neighbor} (h : lastOf lib ns r₀ = some m) :
    ∃ r ∈ ns.foldl (note lib now) rows, SameNeighbor r₀ r := by
  induction ns using List.reverseRecOn with
  | nil => simp [lastOf] at h
  | append_singleton ns n ih =>
    rw [List.foldl_append, List.foldl_cons, List.foldl_nil]
    rw [lastOf_append] at h
    split at h
    · rename_i his
      obtain ⟨hasset, hident⟩ := is_iff.mp his
      by_cases hany : ∃ r ∈ ns.foldl (note lib now) rows, SameNeighbor r₀ r
      · exact note_same hany
      · refine ⟨newRow lib n.1 now n.2, mem_note.mpr (Or.inr (Or.inr ⟨?_, rfl⟩)), hasset.symm, hident.symm⟩
        intro r hr
        by_contra hr'
        obtain ⟨ha, hi⟩ := is_iff.mp (by simpa using hr')
        exact hany ⟨r, hr, ha.trans hasset.symm, hi.trans hident.symm⟩
    · exact note_same (ih h)

theorem rematch_eq (d : Directory) (r : Row) : d.rematch lib r = { r with matched := (d.rematch lib r).matched } := by
  simp only [Directory.rematch]
  split <;> rfl

theorem rematch_report (d : Directory) (r : Row) : (d.rematch lib r).report = r.report := by
  rw [rematch_eq]

/-- Matching a row again with the same report finds the same asset. -/
theorem rematch_same (d : Directory) {r r' : Row} (hasset : r'.asset = r.asset) (hreport : r'.report = r.report)
    (hmatched : r'.matched = (d.rematch lib r).matched) : (d.rematch lib r').matched = (d.rematch lib r).matched := by
  simp only [Directory.rematch, hasset, hreport, hmatched]
  split
  · rfl
  · cases d.find lib r.report <;> rfl

end Rows

/-! ## The cables -/

section Cables

variable {site : Site} {db : Db} {reports : Reports} {errors errors' : Errors} {now now' : Nat}

theorem mem_seen {rows : List Row} {r : Report} :
    r ∈ seen now rows ↔ r.row ∈ rows ∧ r.row.lastSeen = now ∧ r.row.matched = some r.other := by
  simp only [seen, List.mem_filterMap, reportOf]
  constructor
  · rintro ⟨row, hrow, hreport⟩
    split at hreport
    · rename_i hnow
      obtain ⟨other, hother, rfl⟩ := Option.map_eq_some_iff.mp hreport
      exact ⟨hrow, hnow, hother⟩
    · simp at hreport
  · rintro ⟨hrow, hnow, hother⟩
    exact ⟨r.row, hrow, by simp [hnow, hother]⟩

theorem cable_report {r : Report} (h : r.row.matched = some r.other) : cable site r.row = some (r.cable site) := by
  simp [cable, reportOf, h]

/-- The row that a sweep has noted for a neighbour, and what it holds. -/
theorem mem_noted {row : Row} (h : row ∈ noted site db reports errors now) :
    ∃ row₀ ∈ noteAll site.lib now reports db.neighbors,
      row = (directory site (noteSources now reports errors db.sources)).rematch site.lib row₀ := by
  obtain ⟨row₀, hrow₀, rfl⟩ := List.mem_map.mp h
  exact ⟨row₀, hrow₀, rfl⟩

/-- A sweep keeps the rows that it has noted. -/
theorem record_holds {row₀ : Row} (h : row₀ ∈ noteAll site.lib now reports db.neighbors) {n : Neighbor}
    (hlast : lastOf site.lib (neighborsOf reports) row₀ = some n) :
    ∃ row ∈ (record site db reports errors now).neighbors, SameNeighbor row₀ row := by
  rcases mem_fold _ h with ⟨hnone, -⟩ | ⟨m, -, hholds⟩
  · simp [hlast] at hnone
  · refine ⟨settled site db reports errors now _, mem_record.mpr ⟨_, List.mem_map_of_mem h, ?_, rfl⟩, ?_⟩
    · rw [rematch_eq]
      have := hholds.lastSeen
      simp only
      omega
    · rw [settled_eq, rematch_eq]
      exact ⟨rfl, rfl⟩

/-- The cables of a sweep that records the same again are cables of the sweep before. -/
theorem seen_again (hfresh : ∀ r ∈ (record site db reports errors now).neighbors, r.lastSeen ≠ now') {r : Report}
    (hr : r ∈ seen now' (noted site (record site db reports errors now) reports errors' now')) :
    ∃ r₁ ∈ seen now (noted site db reports errors now), r₁.cable site = r.cable site := by
  obtain ⟨hrow, hnow, hother⟩ := mem_seen.mp hr
  obtain ⟨row₂, hrow₂, heq⟩ := mem_noted hrow
  rw [record_sources, directory_again] at heq
  have hsame₂ : SameNeighbor row₂ r.row := by
    rw [heq, rematch_eq]
    exact ⟨rfl, rfl⟩
  have hnow₂ : row₂.lastSeen = now' := by
    rw [heq, rematch_eq] at hnow
    exact hnow
  rcases mem_fold _ hrow₂ with ⟨-, hold⟩ | ⟨n, hlast, hholds₂⟩
  · exact absurd hnow₂ (hfresh _ hold)
  · -- the first sweep has a row for the neighbour too, so the second one writes to that row
    obtain ⟨row₁, hrow₁, hsame₁⟩ := @exists_fold site.lib now db.neighbors _ row₂ n hlast
    have hlast₁ : lastOf site.lib (neighborsOf reports) row₁ = some n := (lastOf_congr hsame₁ _).trans hlast
    obtain ⟨row, hrow', hsame'⟩ := @record_holds site db reports errors now row₁ hrow₁ n hlast₁
    rcases hholds₂.before with ⟨r₀, hr₀, hsame₀, hmatched₀⟩ | hnone
    · obtain ⟨row', hnoted', -, rfl⟩ := mem_record.mp hr₀
      obtain ⟨row₀, hrow₀, heq₀⟩ := mem_noted hnoted'
      rw [settled_eq] at hsame₀ hmatched₀
      have hsame : SameNeighbor row₂ row₀ := by
        rw [heq₀, rematch_eq] at hsame₀
        exact hsame₀
      rcases mem_fold _ hrow₀ with ⟨hnone, -⟩ | ⟨m, hlastm, hholds₀⟩
      · rw [lastOf_congr hsame, hlast] at hnone
        simp at hnone
      · have hm : m = n := by
          rw [lastOf_congr hsame, hlast] at hlastm
          exact (Option.some.inj hlastm).symm
        have hreport : row₂.report = row₀.report := by rw [hholds₂.report, hholds₀.report, hm]
        have hmatched : r.row.matched = row'.matched := by
          rw [heq, heq₀]
          apply rematch_same _ hsame.1.symm hreport
          rw [← hmatched₀, heq₀]
        refine ⟨⟨row', r.other⟩, mem_seen.mpr ⟨hnoted', ?_, hmatched ▸ hother⟩, ?_⟩
        · rw [heq₀, rematch_eq]
          exact hholds₀.lastSeen
        · have hasset : row'.asset = r.row.asset := by
            rw [heq₀, rematch_eq, hsame₂.1]
            exact hsame.1
          have hreport' : row'.report = r.row.report := by
            rw [heq₀, heq, rematch_report, rematch_report, hreport]
          simp only [Report.cable, Report.ends, hasset, hreport']
    · exact absurd ⟨hsame'.1.trans hsame₁.1, hsame'.2.trans hsame₁.2⟩ (hnone row hrow')

end Cables

end Again
