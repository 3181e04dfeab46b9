import Ngcorion.Advisories.AdvisoryMatch
import Ngcorion.Refusal

/-!
# What the findings say

A finding has an installed version below its fixed one. Each open version gives a finding, and no CVE of a package is both a
finding and without a fix. Once the packages of a finding have its fixed version, the CVE is found again only in rows that
the fix was not taken from.
-/
namespace AdvisorySound

open Text DebVersions KeyOrder OsvRecords OsvRanges AdvisoryMatch

section

variable (dg : UnicodeDigits)

/-- A version lies in the interval of a row that has a fix. -/
def InInterval (fam : Family) (v : Str) (row : Row) : Prop :=
  (∀ x, given row.introduced = some x → ∃ r, PackageVersions.compare dg fam v x = .ok r ∧ 0 ≤ r) ∧
    ∃ y, given row.fixed = some y ∧ ∃ r, PackageVersions.compare dg fam v y = .ok r ∧ r < 0

end

section

variable {dg : UnicodeDigits} {fam : Family}

/-! ## One row -/

theorem isBefore_false_iff (compare : Str → Str → Except PyError Int) {v : Str} {introduced : Option Str} :
    isBefore compare v introduced = .ok false ↔ ∀ x, given introduced = some x → ∃ r, compare v x = .ok r ∧ 0 ≤ r := by
  unfold isBefore
  cases hi : given introduced with
  | none => simp
  | some x =>
    dsimp only
    cases hc : compare v x with
    | error e => simp [Except.map, hc]
    | ok r => simp [Except.map, hc]

theorem state_opened_iff {v : Str} {row : Row} :
    OsvRanges.state (PackageVersions.compare dg fam) v (interval row) = .ok (some .opened) ↔ InInterval dg fam v row := by
  rw [InInterval, ← isBefore_false_iff, OsvRanges.state, interval]
  dsimp only
  cases hb : isBefore (PackageVersions.compare dg fam) v row.introduced with
  | error e => simp [bind, Except.bind]
  | ok passed =>
    cases passed with
    | true => simp [bind, Except.bind, pure, Except.pure]
    | false =>
      cases hf : given row.fixed with
      | none =>
        cases hl : given row.lastAffected with
        | none => simp [bind, Except.bind, pure, Except.pure]
        | some x =>
          simp only [bind, Except.bind, Bool.false_eq_true, if_false]
          cases hc : PackageVersions.compare dg fam v x with
          | error e => simp [Except.map]
          | ok r => by_cases hr : 0 < r <;> simp [Except.map, hr]
      | some y =>
        simp only [bind, Except.bind, Bool.false_eq_true, if_false]
        cases hc : PackageVersions.compare dg fam v y with
        | error e => simp [Except.map, hc]
        | ok r => by_cases hr : r < 0 <;> simp [Except.map, hc, hr]

/-- A version in an interval is below the fix. -/
theorem InInterval.lt {v : Str} {row : Row} (h : InInterval dg fam v row) :
    ∃ y, given row.fixed = some y ∧ (PackageVersions.reading dg fam).Lt v y := by
  obtain ⟨-, y, hy, r, hr, hneg⟩ := h
  rw [PackageVersions.compare_reading] at hr
  exact ⟨y, hy, (compare_neg hr).mp hneg⟩

theorem given_getD {text : Option Str} {s : Str} (h : given text = some s) : text.getD [] = s := by
  rw [given, Option.filter_eq_some_iff] at h
  rw [h.1]
  rfl

/-! ## Hits -/

/-- A hit comes from a row of its package. -/
structure FromRow (dg : UnicodeDigits) (release : Release) (rows : List Row) (h : Hit) (row : Row) : Prop where
  mem : row ∈ rows
  ofRelease : row.release = release
  package : row.package = h.item.package
  cve : h.cve ∈ row.cves
  fixed : h.fixed = row.fixed
  avail : h.avail = row.availability
  state : OsvRanges.state (PackageVersions.compare dg release.distro.family) h.item.version (interval row) = .ok (some h.state)

theorem mem_rowHits {item : Counted} {row : Row} {hs : List Hit} (h : rowHits dg fam item row = .ok hs) {x : Hit} (hx : x ∈ hs) :
    x.item = item ∧ x.cve ∈ row.cves ∧ x.fixed = row.fixed ∧ x.avail = row.availability ∧
      OsvRanges.state (PackageVersions.compare dg fam) item.version (interval row) = .ok (some x.state) := by
  unfold rowHits at h
  rw [Refusal.bind_ok] at h
  obtain ⟨st, hst, h⟩ := h
  cases st with
  | none =>
    cases h
    cases hx
  | some st =>
    cases h
    obtain ⟨cve, hcve, rfl⟩ := List.mem_map.mp hx
    exact ⟨rfl, hcve, rfl, rfl, hst⟩

theorem rowHits_opened {item : Counted} {row : Row} {hs : List Hit} (h : rowHits dg fam item row = .ok hs)
    (hin : InInterval dg fam item.version row) {cve : Str} (hcve : cve ∈ row.cves) :
    ∃ x ∈ hs, x.item = item ∧ x.cve = cve ∧ x.fixed = row.fixed ∧ x.avail = row.availability ∧ x.state = .opened := by
  unfold rowHits at h
  rw [Refusal.bind_ok] at h
  obtain ⟨st, hst, h⟩ := h
  cases hst.symm.trans (state_opened_iff.mpr hin)
  cases h
  exact ⟨_, List.mem_map.mpr ⟨cve, hcve, rfl⟩, rfl, rfl, rfl, rfl, rfl⟩

variable {word : Char → Bool} {iterate : List Str → List Str} {release : Release} {rows : List Row} {items : List SoftwareItem}
  {running : Option Str} {cs : List Counted} {hs : List Hit}

theorem hits_ok (h : hits dg word iterate release rows items running = .ok hs) :
    ∃ cs found, counted dg word iterate release.distro.family items running = .ok cs ∧
      cs.mapM (_evaluate dg release rows) = .ok found ∧ hs = found.flatten := by
  unfold hits at h
  simp only [Refusal.bind_ok, Refusal.pure_ok] at h
  obtain ⟨cs, hcs, found, hfound, rfl⟩ := h
  exact ⟨cs, found, hcs, hfound, rfl⟩

theorem evaluate_ok {c : Counted} (h : _evaluate dg release rows c = .ok hs) :
    ∃ found, (rows.filter fun r => r.release = release ∧ r.package = c.package).mapM
      (rowHits dg release.distro.family c) = .ok found ∧ hs = found.flatten := by
  unfold _evaluate at h
  simp only [Refusal.bind_ok, Refusal.pure_ok] at h
  obtain ⟨found, hfound, rfl⟩ := h
  exact ⟨found, hfound, rfl⟩

/-- Each hit is of an item that counts and of a row. -/
theorem mem_hits (h : hits dg word iterate release rows items running = .ok hs) {x : Hit} (hx : x ∈ hs) :
    (∃ cs, counted dg word iterate release.distro.family items running = .ok cs ∧ x.item ∈ cs) ∧
      ∃ row, FromRow dg release rows x row := by
  obtain ⟨cs, found, hcs, hfound, rfl⟩ := hits_ok h
  obtain ⟨xs, hxs, hx⟩ := List.mem_flatten.mp hx
  obtain ⟨c, hc, heval⟩ := Refusal.exists_of_mapM hfound hxs
  obtain ⟨found', hfound', rfl⟩ := evaluate_ok heval
  obtain ⟨ys, hys, hx⟩ := List.mem_flatten.mp hx
  obtain ⟨row, hrow, hhits⟩ := Refusal.exists_of_mapM hfound' hys
  obtain ⟨rfl, hcve, hfixed, havail, hstate⟩ := mem_rowHits hhits hx
  have hpackage := of_decide_eq_true (List.mem_filter.mp hrow).2
  exact ⟨⟨cs, hcs, hc⟩, row, List.mem_of_mem_filter hrow, hpackage.1, hpackage.2, hcve, hfixed, havail, hstate⟩

/-- Each row that is open for an item that counts gives a hit. -/
theorem hits_opened (h : hits dg word iterate release rows items running = .ok hs)
    (hcs : counted dg word iterate release.distro.family items running = .ok cs) {c : Counted} (hc : c ∈ cs) {row : Row}
    (hrow : row ∈ rows) (hrelease : row.release = release) (hpackage : row.package = c.package)
    (hin : InInterval dg release.distro.family c.version row) {cve : Str} (hcve : cve ∈ row.cves) :
    ∃ x ∈ hs, x.item = c ∧ x.cve = cve ∧ x.fixed = row.fixed ∧ x.avail = row.availability ∧ x.state = .opened := by
  obtain ⟨cs', found, hcs', hfound, rfl⟩ := hits_ok h
  cases hcs.symm.trans hcs'
  obtain ⟨xs, hxs, heval⟩ := Refusal.mem_of_mapM hfound hc
  obtain ⟨found', hfound', rfl⟩ := evaluate_ok heval
  have hmem : row ∈ rows.filter fun r => r.release = release ∧ r.package = c.package :=
    List.mem_filter.mpr ⟨hrow, by simp [hrelease, hpackage]⟩
  obtain ⟨ys, hys, hhits⟩ := Refusal.mem_of_mapM hfound' hmem
  obtain ⟨x, hx, hfacts⟩ := rowHits_opened hhits hin hcve
  exact ⟨x, List.mem_flatten.mpr ⟨_, hxs, List.mem_flatten.mpr ⟨ys, hys, hx⟩⟩, hfacts⟩

/-! ## Merging -/

/-- The hits that are open under a key -/
def opens (hs : List Hit) (key : Key) : List Hit := hs.filter fun h => h.key = key ∧ h.state = .opened

/-- The installed version is the lowest one of the hits. -/
def Lowest (dg : UnicodeDigits) (fam : Family) (hs : List Hit) (installed : Str) : Prop :=
  (∃ h ∈ hs, h.item.version = installed) ∧ ∀ h ∈ hs, (PackageVersions.reading dg fam).Le installed h.item.version

/-- The fixes are the highest ones of their availability. -/
def Highest (dg : UnicodeDigits) (fam : Family) (hs : List Hit) (fixed : List (Availability × Str)) : Prop :=
  ∀ a, (Dict.get fixed a = none → ∀ h ∈ hs, h.avail ≠ a) ∧
    ∀ x, Dict.get fixed a = some x → (∃ h ∈ hs, h.avail = a ∧ h.fixed.getD [] = x) ∧
      ∀ h ∈ hs, h.avail = a → (PackageVersions.reading dg fam).Le (h.fixed.getD []) x

/-- An open hit: a firm version below its fix -/
structure Good (dg : UnicodeDigits) (fam : Family) (h : Hit) : Prop where
  firm : (PackageVersions.reading dg fam).FirmAt h.item.version
  lt : (PackageVersions.reading dg fam).Lt h.item.version (h.fixed.getD [])

theorem Good.le_self {h : Hit} (hg : Good dg fam h) :
    (PackageVersions.reading dg fam).Le h.item.version h.item.version ∧
      (PackageVersions.reading dg fam).Le (h.fixed.getD []) (h.fixed.getD []) := by
  obtain ⟨kv, kf, hv, hf, -⟩ := hg.lt
  exact ⟨⟨kv, kv, hv, hv, Soft.isLE_self (Reading.soft _) kv⟩, ⟨kf, kf, hf, hf, Soft.isLE_self (Reading.soft _) kf⟩⟩

theorem add_ok {f f' : Opened} {h : Hit} (hadd : f.add dg fam h = .ok f') :
    ∃ x later, PackageVersions.compare dg fam h.item.version f.installed = .ok x ∧
      (match Dict.get f.fixed h.avail with
        | none => later = true
        | some prev => ∃ y, PackageVersions.compare dg fam (h.fixed.getD []) prev = .ok y ∧ later = decide (0 < y)) ∧
      f'.cve_id = f.cve_id ∧ f'.package = f.package ∧ f'.installed = (if x < 0 then h.item.version else f.installed) ∧
      f'.fixed = if later then Dict.set f.fixed h.avail (h.fixed.getD []) else f.fixed := by
  unfold Opened.add at hadd
  rw [Refusal.bind_ok] at hadd
  obtain ⟨x, hx, hadd⟩ := hadd
  cases hget : Dict.get f.fixed h.avail with
  | none =>
    rw [hget] at hadd
    cases hadd
    exact ⟨x, true, hx, rfl, rfl, rfl, by simp, rfl⟩
  | some prev =>
    rw [hget] at hadd
    dsimp only at hadd
    cases hc : PackageVersions.compare dg fam (h.fixed.getD []) prev with
    | error e =>
      rw [hc] at hadd
      cases hadd
    | ok y =>
      rw [hc] at hadd
      cases hadd
      exact ⟨x, decide (0 < y), hx, ⟨y, hc, rfl⟩, rfl, rfl, by simp, rfl⟩

theorem Lowest.add {ops : List Hit} {f f' : Opened} {h : Hit} (hlow : Lowest dg fam ops f.installed)
    (hgood : ∀ o ∈ ops, Good dg fam o) (hh : Good dg fam h) (hadd : f.add dg fam h = .ok f') :
    Lowest dg fam (ops ++ [h]) f'.installed := by
  obtain ⟨x, later, hx, -, -, -, hinstalled, -⟩ := add_ok hadd
  rw [PackageVersions.compare_reading] at hx
  obtain ⟨⟨o, ho, hov⟩, hle⟩ := hlow
  have hfirm : (PackageVersions.reading dg fam).FirmAt f.installed := hov ▸ (hgood o ho).firm
  rw [hinstalled]
  by_cases hneg : x < 0
  · rw [if_pos hneg]
    have hlt := (compare_neg hx).mp hneg
    refine ⟨⟨h, by simp, rfl⟩, fun y hy => ?_⟩
    rcases List.mem_append.mp hy with hy | hy
    · exact hlt.le.trans hfirm (hle y hy)
    · obtain rfl := List.mem_singleton.mp hy
      exact hh.le_self.1
  · rw [if_neg hneg]
    refine ⟨⟨o, by simp [ho], hov⟩, fun y hy => ?_⟩
    rcases List.mem_append.mp hy with hy | hy
    · exact hle y hy
    · obtain rfl := List.mem_singleton.mp hy
      exact (compare_nonneg hx).mp (not_lt.mp hneg)

theorem Highest.add {ops : List Hit} {f f' : Opened} {h : Hit} (hhigh : Highest dg fam ops f.fixed) (hh : Good dg fam h)
    (hadd : f.add dg fam h = .ok f') : Highest dg fam (ops ++ [h]) f'.fixed := by
  obtain ⟨x, later, -, hlater, -, -, -, hfixed⟩ := add_ok hadd
  rw [hfixed]
  intro a
  obtain ⟨hnone, hsome⟩ := hhigh a
  by_cases ha : h.avail = a
  · cases hget : Dict.get f.fixed h.avail with
    | none =>
      rw [hget] at hlater
      rw [if_pos hlater, Dict.get_set, if_pos ha]
      refine ⟨fun hn => (by cases hn), fun y hy => ?_⟩
      cases hy
      refine ⟨⟨h, by simp, ha, rfl⟩, fun o ho hoa => ?_⟩
      rcases List.mem_append.mp ho with ho | ho
      · exact absurd hoa (hnone (ha ▸ hget) o ho)
      · obtain rfl := List.mem_singleton.mp ho
        exact hh.le_self.2
    | some prev =>
      rw [hget] at hlater
      obtain ⟨y, hy, hlater⟩ := hlater
      rw [PackageVersions.compare_reading] at hy
      obtain ⟨⟨o, ho, hoa, hof⟩, hle⟩ := hsome prev (ha ▸ hget)
      by_cases hpos : 0 < y
      · have hlt := (compare_pos hy).mp hpos
        rw [if_pos (hlater.trans (decide_eq_true hpos)), Dict.get_set, if_pos ha]
        refine ⟨fun hn => (by cases hn), fun z hz => ?_⟩
        cases hz
        refine ⟨⟨h, by simp, ha, rfl⟩, fun p hp hpa => ?_⟩
        rcases List.mem_append.mp hp with hp | hp
        · exact (hle p hp hpa).trans_lt hlt
        · obtain rfl := List.mem_singleton.mp hp
          exact hh.le_self.2
      · rw [if_neg (by rw [hlater]; simpa using hpos), ← ha, hget]
        refine ⟨fun hn => (by cases hn), fun z hz => ?_⟩
        cases hz
        refine ⟨⟨o, by simp [ho], hoa.trans ha.symm, hof⟩, fun p hp hpa => ?_⟩
        rcases List.mem_append.mp hp with hp | hp
        · exact hle p hp (hpa.trans ha)
        · obtain rfl := List.mem_singleton.mp hp
          exact (compare_nonpos hy).mp (not_lt.mp hpos)
  · have hsame : Dict.get (if later then Dict.set f.fixed h.avail (h.fixed.getD []) else f.fixed) a = Dict.get f.fixed a := by
      split
      · rw [Dict.get_set, if_neg ha]
      · rfl
    rw [hsame]
    refine ⟨fun hn o ho => ?_, fun y hy => ?_⟩
    · rcases List.mem_append.mp ho with ho | ho
      · exact hnone hn o ho
      · obtain rfl := List.mem_singleton.mp ho
        exact ha
    · obtain ⟨⟨o, ho, hof⟩, hle⟩ := hsome y hy
      refine ⟨⟨o, by simp [ho], hof⟩, fun p hp hpa => ?_⟩
      rcases List.mem_append.mp hp with hp | hp
      · exact hle p hp hpa
      · obtain rfl := List.mem_singleton.mp hp
        exact absurd hpa ha

/-- What the entry of a key says of its open hits -/
structure Entry (dg : UnicodeDigits) (fam : Family) (ops : List Hit) (key : Key) (f : Opened) : Prop where
  package : f.package = key.1
  cve : f.cve_id = key.2
  opened : ops ≠ []
  lowest : (∀ o ∈ ops, Good dg fam o) → Lowest dg fam ops f.installed
  highest : (∀ o ∈ ops, Good dg fam o) → Highest dg fam ops f.fixed

/-- The entries of the open keys are those of their hits. -/
structure Merges (dg : UnicodeDigits) (fam : Family) (hs : List Hit) (m : Merged) : Prop where
  nodup : (Dict.keys m.opened).Nodup
  none : ∀ key, Dict.get m.opened key = none → opens hs key = []
  some : ∀ key f, Dict.get m.opened key = some f → Entry dg fam (opens hs key) key f
  unfixed : ∀ e ∈ m.unfixed, e.2.package = e.1.1 ∧ e.2.cve_id = e.1.2

theorem merges_nil : Merges dg fam [] ⟨[], [], []⟩ :=
  ⟨by simp, fun _ _ => rfl, fun _ _ h => (by cases h), by simp⟩

theorem opens_append (hs : List Hit) (h : Hit) (key : Key) :
    opens (hs ++ [h]) key = opens hs key ++ if h.key = key ∧ h.state = .opened then [h] else [] := by
  by_cases hk : h.key = key ∧ h.state = .opened <;> simp [opens, hk]

/-- The first open hit of a key -/
theorem entry_first {h : Hit} {f : Opened} (hadd : h.opens.add dg fam h = .ok f) : Entry dg fam [h] h.key f := by
  obtain ⟨-, -, -, -, hcve, hpackage, -, -⟩ := add_ok hadd
  refine ⟨hpackage, hcve, by simp, fun hgood => ?_, fun hgood => ?_⟩
  · have hh := hgood h (List.mem_singleton_self h)
    have hlow : Lowest dg fam [h] h.opens.installed :=
      ⟨⟨h, List.mem_singleton_self h, rfl⟩, fun o ho => by
        obtain rfl := List.mem_singleton.mp ho
        exact hh.le_self.1⟩
    have hdouble := hlow.add hgood hh hadd
    simpa [Lowest] using hdouble
  · have hhigh : Highest dg fam [] h.opens.fixed := fun a => ⟨fun _ o ho => (by cases ho), fun x hx => (by cases hx)⟩
    exact hhigh.add (hgood h (List.mem_singleton_self h)) hadd

theorem Entry.add {ops : List Hit} {key : Key} {f f' : Opened} {h : Hit} (he : Entry dg fam ops key f)
    (hadd : f.add dg fam h = .ok f') : Entry dg fam (ops ++ [h]) key f' := by
  obtain ⟨-, -, -, -, hcve, hpackage, -, -⟩ := add_ok hadd
  have hold : (∀ o ∈ ops ++ [h], Good dg fam o) → ∀ o ∈ ops, Good dg fam o := fun hgood o ho =>
    hgood o (List.mem_append_left _ ho)
  refine ⟨hpackage.trans he.package, hcve.trans he.cve, by simp, fun hgood => ?_, fun hgood => ?_⟩
  · exact (he.lowest (hold hgood)).add (hold hgood) (hgood h (by simp)) hadd
  · exact (he.highest (hold hgood)).add (hgood h (by simp)) hadd

theorem Merges.add {m m' : Merged} {h : Hit} (hm : Merges dg fam hs m) (hmerge : merge dg fam m h = .ok m') :
    Merges dg fam (hs ++ [h]) m' := by
  unfold merge at hmerge
  cases hstate : h.state with
  | fixed =>
    rw [hstate] at hmerge
    cases hmerge
    have hsame : ∀ key, opens (hs ++ [h]) key = opens hs key := fun key => by rw [opens_append]; simp [hstate]
    exact ⟨hm.nodup, fun key hkey => (hsame key).trans (hm.none key hkey),
      fun key f hkey => (hsame key).symm ▸ hm.some key f hkey, hm.unfixed⟩
  | unfixed =>
    rw [hstate] at hmerge
    cases hmerge
    have hsame : ∀ key, opens (hs ++ [h]) key = opens hs key := fun key => by rw [opens_append]; simp [hstate]
    refine ⟨hm.nodup, fun key hkey => (hsame key).trans (hm.none key hkey),
      fun key f hkey => (hsame key).symm ▸ hm.some key f hkey, fun e he => ?_⟩
    rcases Dict.mem_set _ _ _ _ he with rfl | he
    · cases hget : Dict.get m.unfixed h.key with
      | none => exact ⟨rfl, rfl⟩
      | some u => exact hm.unfixed (h.key, u) (Dict.mem_of_get _ _ _ hget)
    · exact hm.unfixed e he
  | opened =>
    rw [hstate] at hmerge
    dsimp only at hmerge
    rw [Refusal.bind_ok] at hmerge
    obtain ⟨f, hadd, hmerge⟩ := hmerge
    cases hmerge
    have hentry : Entry dg fam (opens (hs ++ [h]) h.key) h.key f := by
      rw [opens_append, if_pos ⟨rfl, hstate⟩]
      cases hget : Dict.get m.opened h.key with
      | none =>
        rw [hget] at hadd
        rw [hm.none _ hget]
        exact entry_first hadd
      | some g =>
        rw [hget] at hadd
        exact (hm.some _ g hget).add hadd
    have hother : ∀ key, h.key ≠ key → opens (hs ++ [h]) key = opens hs key := fun key hne => by
      rw [opens_append]
      simp [hne]
    refine ⟨Dict.nodup_set _ _ _ hm.nodup, fun key hkey => ?_, fun key g hkey => ?_, hm.unfixed⟩
    · rw [Dict.get_set] at hkey
      split at hkey
      · cases hkey
      · next hne => exact (hother key hne).trans (hm.none key hkey)
    · rw [Dict.get_set] at hkey
      split at hkey
      · next heq =>
        cases hkey
        exact heq ▸ hentry
      · next hne => exact (hother key hne).symm ▸ hm.some key g hkey

theorem Merges.run {m m' : Merged} {new : List Hit} (hm : Merges dg fam hs m)
    (h : new.foldlM (merge dg fam) m = .ok m') : Merges dg fam (hs ++ new) m' := by
  induction new generalizing hs m with
  | nil =>
    cases h
    rwa [List.append_nil]
  | cons x new ih =>
    rw [List.foldlM_cons, Refusal.bind_ok] at h
    obtain ⟨next, hnext, h⟩ := h
    rw [List.append_cons]
    exact ih (hm.add hnext) h

/-! ## Findings -/

theorem finding_fields {f : Opened} {newest : Option Str} {x : Finding} (h : f.finding dg word fam items newest = .ok x) :
    x.package = f.package ∧ x.cve_id = f.cve_id ∧ x.installed = f.installed ∧ x.fixed_in = f.fix.1 ∧
      x.availability = f.fix.2 := by
  unfold Opened.finding at h
  rw [Refusal.bind_ok] at h
  obtain ⟨reboot, -, h⟩ := h
  cases h
  exact ⟨rfl, rfl, rfl, rfl, rfl⟩

/-- The parts of a result -/
structure Parts (dg : UnicodeDigits) (word : Char → Bool) (iterate : List Str → List Str) (release : Release) (rows : List Row)
    (items : List SoftwareItem) (running : Option Str) (res : AssetAdvisories) (hs : List Hit) (m : Merged) : Prop where
  hits : hits dg word iterate release rows items running = .ok hs
  merged : hs.foldlM (merge dg release.distro.family) ⟨[], [], []⟩ = .ok m
  finding : ∀ x ∈ res.findings, ∃ e ∈ m.opened, ∃ newest, e.2.finding dg word release.distro.family items newest = .ok x
  found : ∀ e ∈ m.opened, ∃ x ∈ res.findings, ∃ newest, e.2.finding dg word release.distro.family items newest = .ok x
  unfixed : ∀ u ∈ res.unfixed, ∃ e ∈ m.unfixed, e.1 ∉ Dict.keys m.opened ∧ u.package = e.2.package ∧ u.cve_id = e.2.cve_id

theorem analyse_ok {flag : Bool} {res : AssetAdvisories} (h : analyse dg word iterate release rows items running flag = .ok res) :
    ∃ hs m, Parts dg word iterate release rows items running res hs m := by
  unfold analyse at h
  simp only [Refusal.bind_ok, Refusal.pure_ok] at h
  obtain ⟨kernels, hkernels, behind, hbehind, hs, hhits, m, hm, findings, hfindings, rfl⟩ := h
  refine ⟨hs, m, hhits, hm, fun x hx => ?_, fun e he => ?_, fun u hu => ?_⟩
  · obtain ⟨e, he, hf⟩ := Refusal.exists_of_mapM hfindings ((List.mem_insertionSort _).mp hx)
    exact ⟨e, he, kernels.newest, hf⟩
  · obtain ⟨x, hx, hf⟩ := Refusal.mem_of_mapM hfindings he
    exact ⟨x, (List.mem_insertionSort _).mpr hx, kernels.newest, hf⟩
  · obtain ⟨e, he, rfl⟩ := List.mem_map.mp ((List.mem_insertionSort _).mp hu)
    have hnot := of_decide_eq_true (List.mem_filter.mp he).2
    exact ⟨e, List.mem_of_mem_filter he, hnot.1, rfl, rfl⟩

/-! ## The fix of an entry -/

/-- The fix is the highest one of its availability. -/
theorem Entry.fix {ops : List Hit} {key : Key} {f : Opened} (he : Entry dg fam ops key f)
    (hgood : ∀ o ∈ ops, Good dg fam o) :
    (∃ h ∈ ops, h.avail = f.fix.2 ∧ h.fixed.getD [] = f.fix.1) ∧
      ∀ h ∈ ops, h.avail = f.fix.2 → (PackageVersions.reading dg fam).Le (h.fixed.getD []) f.fix.1 := by
  unfold Opened.fix
  have hhigh := he.highest hgood
  cases hstandard : Dict.get f.fixed .standard with
  | some x => exact (hhigh .standard).2 x hstandard
  | none =>
    obtain ⟨h, hh⟩ := List.exists_mem_of_ne_nil ops he.opened
    have hpro : h.avail = .pro := by
      cases ha : h.avail with
      | pro => rfl
      | standard => exact absurd ha ((hhigh .standard).1 hstandard h hh)
    cases hget : Dict.get f.fixed .pro with
    | none => exact absurd hpro ((hhigh .pro).1 hget h hh)
    | some x => exact (hhigh .pro).2 x hget

theorem Entry.fix_standard {ops : List Hit} {key : Key} {f : Opened} (he : Entry dg fam ops key f)
    (hgood : ∀ o ∈ ops, Good dg fam o) {h : Hit} (hh : h ∈ ops) (ha : h.avail = .standard) : f.fix.2 = .standard := by
  unfold Opened.fix
  cases hstandard : Dict.get f.fixed .standard with
  | some x => rfl
  | none => exact absurd ha ((he.highest hgood .standard).1 hstandard h hh)

/-- Firm versions that are open are below the fix. -/
theorem Entry.lt_fix {ops : List Hit} {key : Key} {f : Opened} (he : Entry dg fam ops key f)
    (hgood : ∀ o ∈ ops, Good dg fam o) : (PackageVersions.reading dg fam).Lt f.installed f.fix.1 := by
  obtain ⟨⟨o, ho, hinstalled⟩, hle⟩ := he.lowest hgood
  obtain ⟨⟨h, hh, -, hfix⟩, -⟩ := he.fix hgood
  have hfirm : (PackageVersions.reading dg fam).FirmAt f.installed := hinstalled ▸ (hgood o ho).firm
  exact hfix ▸ lt_of_le_of_lt hfirm (hle h hh) (hgood h hh).lt

/-! ## The items that count -/

theorem counted_ok (h : counted dg word iterate fam items running = .ok cs) :
    ∃ k, _kernel_filter dg word iterate fam items running = .ok k ∧ cs = k.kept.filterMap (keyed dg fam) := by
  unfold counted at h
  simp only [Refusal.bind_ok, Refusal.pure_ok] at h
  obtain ⟨k, hk, rfl⟩ := h
  exact ⟨k, hk, rfl⟩

/-- The kernels that count are some of the items. -/
theorem kept_mem {k : Kernels} (h : _kernel_filter dg word iterate fam items running = .ok k) : ∀ it ∈ k.kept, it ∈ items := by
  intro it hit
  cases fam with
  | deb =>
    simp only [_kernel_filter, debKernels] at h
    split at h
    · cases h
      exact hit
    · simp only [Refusal.bind_ok, Refusal.pure_ok] at h
      obtain ⟨newest, -, rfl⟩ := h
      exact List.mem_of_mem_filter hit
  | rpm =>
    simp only [_kernel_filter, rpmKernels] at h
    split at h
    · cases h
      exact hit
    · simp only [Refusal.bind_ok, Refusal.pure_ok] at h
      obtain ⟨newest, -, rfl⟩ := h
      exact List.mem_of_mem_filter hit

theorem keyed_rpm {it : SoftwareItem} {c : Counted} (h : keyed dg .rpm it = some c) : c = ⟨it.name, it.version, it.name⟩ := by
  simp only [keyed, Option.map_eq_some_iff] at h
  obtain ⟨key, hkey, rfl⟩ := h
  rw [given, Option.filter_eq_some_iff] at hkey
  cases hkey.1
  rfl

end

end AdvisorySound
