import Mathlib.Data.List.Dedup
import Ngcorion.Advisories.AdvisorySound

/-!
# Upgrading to a fix

When the items of a package that count get another version, the items that count are the same ones, at that version: a
kernel that did not count before does not count after, where the new version is above the others.
-/
namespace AdvisoryUpgrade

open Text ParamSecurity DebVersions KeyOrder OsvRecords OsvRanges AdvisoryMatch AdvisorySound
open RpmVersions (evr evrEpoch afterEpoch _rpm_split)

/-! ## Versions of rpm -/

/-- A version without blanks, with one epoch at most -/
structure Plain (v : Str) : Prop where
  blanks : ∀ c ∈ v, isSpace c = false
  epoch : v.count ':' ≤ 1

section

variable (dg : UnicodeDigits)

/-- The version of an installed rpm package, which has a release -/
structure HasEvr (v : Str) : Prop extends Plain v where
  release : (evr dg v).2.2 ≠ []

variable {dg} {v : Str}

theorem Plain.strip (h : Plain v) : strip v = v :=
  strip_of_ends (fun c hc => h.blanks c (List.mem_of_mem_head? hc))
    (fun c hc => h.blanks c (List.mem_reverse.mp (List.mem_of_mem_head? hc)))

theorem HasEvr.firm (h : HasEvr dg v) : (PackageVersions.reading dg .rpm).FirmAt v :=
  PackageVersions.hasRelease_rpm dg (h.strip.symm ▸ h.release)

theorem evrEpoch_of_no_colon (h : ':' ∉ v) : evrEpoch dg v = [] := by
  rw [evrEpoch]
  exact if_neg fun hhead => h (List.mem_of_mem_drop (List.mem_of_mem_head? hhead))

theorem value_zero : dg.value '0' = some 0 := by
  rw [dg.value_ascii '0' (by decide)]
  decide

theorem value_colon : dg.value ':' = none := by
  rw [dg.value_ascii ':' (by decide)]
  decide

theorem int_zero : int dg.toDigits ['0'] = some 0 := by
  simp [int, natural, digitsFrom, value_zero]

/-- An epoch of zero may be left out. -/
theorem read_dropZeroEpoch (h : Plain v) : _rpm_split dg (dropZeroEpoch v) = _rpm_split dg v := by
  unfold dropZeroEpoch after
  split
  · next hstart =>
    obtain ⟨s, rfl⟩ := (startsWith_iff _ _).mp hstart
    have hzero : lit "0:" = ['0', ':'] := by unfold lit; rfl
    rw [hzero] at h ⊢
    have hcolon : ':' ∉ s := by
      have hcount := h.epoch
      simp only [List.cons_append, List.nil_append, List.count_cons] at hcount
      exact List.count_eq_zero.mp (by simp at hcount ⊢; omega)
    have hs : Plain s := ⟨fun c hc => h.blanks c (by simp [hc]), by rw [List.count_eq_zero.mpr hcolon]; omega⟩
    have hepoch : evrEpoch dg ('0' :: ':' :: s) = ['0'] := by
      simp [evrEpoch, value_zero, value_colon]
    have hrest : evrEpoch dg s = [] := evrEpoch_of_no_colon hcolon
    have hstrip : strip ('0' :: ':' :: s) = '0' :: ':' :: s := h.strip
    simp [_rpm_split, hs.strip, hstrip, evr, afterEpoch, hepoch, hrest, int_zero]
  · rfl

theorem dropZeroEpoch_ne_nil (h : HasEvr dg v) : dropZeroEpoch v ≠ [] := by
  have hdash : '-' ∈ v := by
    by_contra hno
    apply h.release
    have hafter : '-' ∉ afterEpoch dg v := fun hmem => hno (by
      unfold afterEpoch at hmem
      split at hmem
      · exact hmem
      · exact List.mem_of_mem_drop hmem)
    simp [evr, hafter]
  unfold dropZeroEpoch after
  split
  · next hstart =>
    obtain ⟨s, rfl⟩ := (startsWith_iff _ _).mp hstart
    have hzero : lit "0:" = ['0', ':'] := by unfold lit; rfl
    rw [hzero] at hdash ⊢
    rintro (rfl : s = [])
    simp at hdash
  · rintro (rfl : v = [])
    cases hdash

theorem le_dropZeroEpoch {w : Str} (hv : Plain v) (hw : Plain w) :
    (PackageVersions.reading dg .rpm).Le (dropZeroEpoch v) (dropZeroEpoch w) ↔ (PackageVersions.reading dg .rpm).Le v w := by
  have hread : ∀ x, Plain x → (PackageVersions.reading dg .rpm).read (dropZeroEpoch x) =
      (PackageVersions.reading dg .rpm).read x := fun x hx => by
    change (_rpm_split dg (dropZeroEpoch x)).map _ = (_rpm_split dg x).map _
    rw [read_dropZeroEpoch hx]
  simp only [Reading.Le, hread v hv, hread w hw]

end

/-! ## The items after an upgrade -/

section

variable (dg : UnicodeDigits) (fam : Family)

/-- An item of a package that counts gets the fixed version. -/
def upgrade (kept : List SoftwareItem) (package fixed : Str) (it : SoftwareItem) : SoftwareItem :=
  if it ∈ kept ∧ (keyed dg fam it).any fun c => c.package = package then
    { it with version := fixed, source_version := none }
  else it

variable {dg} {fam} {kept : List SoftwareItem} {package fixed : Str} {it : SoftwareItem}

@[simp] theorem upgrade_name : (upgrade dg fam kept package fixed it).name = it.name := by
  unfold upgrade
  split <;> rfl

@[simp] theorem upgrade_source : (upgrade dg fam kept package fixed it).source_package = it.source_package := by
  unfold upgrade
  split <;> rfl

/-- An upgrade keeps the names that are looked up. -/
theorem keyed_upgrade : (keyed dg fam (upgrade dg fam kept package fixed it)).map Counted.package =
    (keyed dg fam it).map Counted.package := by
  cases fam with
  | deb =>
    have hkey : _deb_key (upgrade dg .deb kept package fixed it) = _deb_key it := by
      simp only [_deb_key, upgrade_name, upgrade_source]
    simp only [keyed, upgrade_name, hkey]
    split
    · rfl
    · simp [Option.map_map, Function.comp_def]
  | rpm => simp [keyed, Option.map_map, Function.comp_def]

/-- An upgraded item has the fixed version. -/
theorem upgraded_version (hit : it ∈ kept) {c : Counted} (h : keyed dg fam (upgrade dg fam kept package fixed it) = some c)
    (hpackage : c.package = package) : c.version = fixed := by
  have hname := @keyed_upgrade dg fam kept package fixed it
  rw [h, Option.map_some, eq_comm, Option.map_eq_some_iff] at hname
  obtain ⟨d, hd, hdc⟩ := hname
  have hupgrade : upgrade dg fam kept package fixed it = { it with version := fixed, source_version := none } :=
    if_pos ⟨hit, by rw [hd]; simp [hdc, hpackage]⟩
  rw [hupgrade] at h
  cases fam with
  | deb =>
    simp only [keyed] at h
    split at h
    · cases h
    · obtain ⟨key, -, rfl⟩ := Option.map_eq_some_iff.mp h
      cases fixed <;> rfl
  | rpm => rw [keyed_rpm h]

variable {word : Char → Bool} {iterate : List Str → List Str} {items : List SoftwareItem} {running : Option Str} {k k' : Kernels}

/-- The kernels that count go by names on Debian, which an upgrade keeps. -/
theorem debKernels_upgrade (up : SoftwareItem → SoftwareItem) (hname : ∀ it, (up it).name = it.name)
    (h : debKernels dg word iterate items running = .ok k) :
    debKernels dg word iterate (items.map up) running = .ok ⟨k.kept.map up, k.newest, k.run⟩ := by
  have habis : (items.map up).filterMap (fun it => kernelAbi dg word it.name) =
      items.filterMap fun it => kernelAbi dg word it.name := by
    rw [List.filterMap_map]
    exact List.filterMap_congr fun it _ => by simp [hname]
  unfold debKernels at h ⊢
  dsimp only at h ⊢
  rw [habis]
  split at h
  · next hnone =>
    cases h
    rw [if_pos hnone]
    rfl
  · next hsome =>
    rw [if_neg hsome]
    simp only [Refusal.bind_ok, Refusal.pure_ok] at h ⊢
    obtain ⟨newest, hnewest, rfl⟩ := h
    refine ⟨newest, hnewest, ?_⟩
    rw [List.filter_map]
    simp only [Function.comp_def, hname]

/-! ## The newest kernel -/

theorem greatest_later {o : Reading Str PyError} {best m : Str} {vs : List Str}
    (h : greatest (fun f best => (o.compare best f).map fun x => decide (x < 0)) best vs = .ok m) :
    greatest (laterBy o id) best vs = .ok m := by
  induction vs generalizing best with
  | nil => exact h
  | cons v vs ih =>
    have hcompare : ∀ took, (o.compare best v).map (fun x => decide (x < 0)) = .ok took → laterBy o id v best = .ok took := by
      intro took htook
      cases hc : o.compare best v with
      | error e =>
        rw [hc] at htook
        cases htook
      | ok x =>
        rw [hc] at htook
        cases htook
        rw [laterBy, id, id, compare_swap hc]
        simp [Except.map]
    rw [greatest]
    rcases greatest_cons h with ⟨hl, h⟩ | ⟨hl, h⟩
    · rw [hcompare _ hl]
      exact ih h
    · rw [hcompare _ hl]
      exact ih h

/-- No version of the set is above the latest one. -/
theorem latest_upTo (hset : ∀ l x, x ∈ iterate l ↔ x ∈ l) {versions : List Str} {m : Str}
    (h : latest dg iterate fam versions = .ok (some m)) {x : Str} (hx : x ∈ versions) :
    x = m ∨ (PackageVersions.reading dg fam).Le x m := by
  unfold latest at h
  cases hvs : iterate versions with
  | nil =>
    rw [hvs] at h
    cases h
  | cons v vs =>
    rw [hvs] at h
    dsimp only at h
    simp only [PackageVersions.compare_reading] at h
    cases hg : greatest (fun f best =>
      ((PackageVersions.reading dg fam).compare best f).map fun x => decide (x < 0)) v vs with
    | error e =>
      rw [hg] at h
      cases h
    | ok g =>
      rw [hg] at h
      cases h
      have hlater := greatest_later hg
      have hmem : x ∈ v :: vs := hvs ▸ (hset versions x).mpr hx
      rcases List.mem_cons.mp hmem with rfl | hmem
      · exact (greatest_ge hlater).imp Eq.symm Reading.Lt.le
      · exact .inr (greatest_upTo hlater x hmem)

/-! ## The kernels of rpm -/

def kernelVersions (items : List SoftwareItem) : List Str :=
  (items.filter fun it => isRpmKernel it.name).map fun it => dropZeroEpoch it.version

/-- The version of the kernels that count -/
def keepVersion (run : Option Str) (versions : List Str) (newest : Option Str) : Option Str :=
  match run with
  | some r => if r ∈ versions then some r else if r = [] then newest else none
  | none => newest

theorem rpmKernels_ok (h : rpmKernels dg word iterate items running = .ok k) :
    (∀ it ∈ items, isRpmKernel it.name = false) ∧ k.kept = items ∨
      ∃ newest, latest dg iterate .rpm (kernelVersions items) = .ok newest ∧ k.kept = items.filter fun it =>
        !isRpmKernel it.name ||
          some (dropZeroEpoch it.version) = keepVersion ((given running).map (dropArch word)) (kernelVersions items) newest := by
  unfold rpmKernels at h
  dsimp only at h
  split at h
  · next hnone =>
    cases h
    exact .inl ⟨fun it hit => by simpa using List.filter_eq_nil_iff.mp hnone it hit, rfl⟩
  · simp only [Refusal.bind_ok, Refusal.pure_ok] at h
    obtain ⟨newest, hnewest, rfl⟩ := h
    exact .inr ⟨newest, hnewest, rfl⟩

theorem mem_kernelVersions (hit : it ∈ items) (hkernel : isRpmKernel it.name = true) :
    dropZeroEpoch it.version ∈ kernelVersions items :=
  List.mem_map.mpr ⟨it, List.mem_filter.mpr ⟨hit, hkernel⟩, rfl⟩

/-- A kernel is not the newest one once another kernel of the set has a version above all. -/
theorem newest_upgraded (hset : ∀ l x, x ∈ iterate l ↔ x ∈ l) {u : SoftwareItem} {versions : List Str}
    (hevr : HasEvr dg it.version) (hu : Plain u.version) (hfixed : Plain fixed)
    (hlt : (PackageVersions.reading dg .rpm).Lt u.version fixed) (hit : dropZeroEpoch it.version ∈ kernelVersions items)
    (hnew : dropZeroEpoch fixed ∈ versions) (hne : dropZeroEpoch it.version ≠ dropZeroEpoch u.version)
    (hnewest : latest dg iterate .rpm (kernelVersions items) = .ok (some (dropZeroEpoch u.version))) :
    latest dg iterate .rpm versions ≠ .ok (some (dropZeroEpoch it.version)) := by
  intro hnewest'
  have hbelow : (PackageVersions.reading dg .rpm).Lt it.version fixed := by
    rcases latest_upTo hset hnewest hit with heq | hle
    · exact absurd heq hne
    · exact lt_of_le_of_lt hevr.firm ((le_dropZeroEpoch hevr.toPlain hu).mp hle) hlt
  refine hbelow.not_le ((le_dropZeroEpoch hfixed hevr.toPlain).mp ?_)
  rcases latest_upTo hset hnewest' hnew with heq | hle
  · obtain ⟨-, kf, -, hkf, -⟩ := hlt
    have hself : (PackageVersions.reading dg .rpm).Le fixed fixed := ⟨kf, kf, hkf, hkf, (Reading.soft _).isLE_self kf⟩
    rw [← heq]
    exact (le_dropZeroEpoch hfixed hfixed).mpr hself
  · exact hle

/-- A kernel of the package that counts after the upgrade counted before. -/
theorem rpmKernels_upgrade (hset : ∀ l x, x ∈ iterate l ↔ x ∈ l) (hevr : ∀ it ∈ items, HasEvr dg it.version)
    (hfixed : Plain fixed) (h : rpmKernels dg word iterate items running = .ok k) {u : SoftwareItem} (hu : u ∈ k.kept)
    (huitem : u ∈ items) (hukeyed : (keyed dg .rpm u).any fun c => c.package = package) (huname : u.name = package)
    (hlt : (PackageVersions.reading dg .rpm).Lt u.version fixed)
    (h' : rpmKernels dg word iterate (items.map (upgrade dg .rpm k.kept package fixed)) running = .ok k') (hit : it ∈ items)
    (hname : it.name = package) (hkept : upgrade dg .rpm k.kept package fixed it ∈ k'.kept) : it ∈ k.kept := by
  by_contra hnot
  have hsame : upgrade dg .rpm k.kept package fixed it = it := if_neg fun hup => hnot hup.1
  have hunew : upgrade dg .rpm k.kept package fixed u = { u with version := fixed, source_version := none } :=
    if_pos ⟨hu, hukeyed⟩
  have hmem : ∀ x ∈ items, upgrade dg .rpm k.kept package fixed x ∈ items.map (upgrade dg .rpm k.kept package fixed) :=
    fun x hx => List.mem_map.mpr ⟨x, hx, rfl⟩
  rw [hsame] at hkept
  rcases rpmKernels_ok h with ⟨-, hall⟩ | ⟨newest, hnewest, hk⟩
  · exact hnot (hall.symm ▸ hit)
  rw [hk, List.mem_filter] at hnot hu
  have hkernel : isRpmKernel it.name = true := by
    by_contra hno
    exact hnot ⟨hit, by simp [Bool.eq_false_of_not_eq_true hno]⟩
  have hukernel : isRpmKernel u.name = true := huname.symm ▸ hname ▸ hkernel
  have hkeep : some (dropZeroEpoch u.version) =
      keepVersion ((given running).map (dropArch word)) (kernelVersions items) newest := by
    simpa [hukernel] using hu.2
  have hother : some (dropZeroEpoch it.version) ≠
      keepVersion ((given running).map (dropArch word)) (kernelVersions items) newest := fun heq =>
    hnot ⟨hit, by simp [heq]⟩
  rcases rpmKernels_ok h' with ⟨hnone, -⟩ | ⟨newest', hnewest', hk'⟩
  · have hfalse := hnone it (hsame ▸ hmem it hit)
    rw [hkernel] at hfalse
    cases hfalse
  rw [hk', List.mem_filter] at hkept
  have hkeep' : some (dropZeroEpoch it.version) = keepVersion ((given running).map (dropArch word))
      (kernelVersions (items.map (upgrade dg .rpm k.kept package fixed))) newest' := by
    simpa [hkernel] using hkept.2
  have hne : dropZeroEpoch it.version ≠ dropZeroEpoch u.version := fun heq => hother (heq ▸ hkeep)
  have hnew : dropZeroEpoch fixed ∈ kernelVersions (items.map (upgrade dg .rpm k.kept package fixed)) := by
    have hin := hmem u huitem
    rw [hunew] at hin
    exact mem_kernelVersions hin hukernel
  -- the running kernel is the same, so that the newest one decides
  have hlatest := newest_upgraded hset (hevr it hit) (hevr u huitem).toPlain hfixed hlt (mem_kernelVersions hit hkernel)
    hnew hne
  unfold keepVersion at hkeep hkeep'
  cases hrun : (given running).map (dropArch word) with
  | none =>
    rw [hrun] at hkeep hkeep'
    dsimp only at hkeep hkeep'
    rw [← hkeep] at hnewest
    exact hlatest hnewest (hkeep'.symm ▸ hnewest')
  | some r =>
    rw [hrun] at hkeep hkeep'
    dsimp only at hkeep hkeep'
    by_cases hr : r = []
    · subst hr
      split at hkeep
      · exact dropZeroEpoch_ne_nil (hevr u huitem) (Option.some.inj hkeep)
      · split at hkeep'
        · exact dropZeroEpoch_ne_nil (hevr it hit) (Option.some.inj hkeep')
        · rw [if_pos rfl] at hkeep hkeep'
          rw [← hkeep] at hnewest
          exact hlatest hnewest (hkeep'.symm ▸ hnewest')
    · rw [if_neg hr] at hkeep hkeep'
      split at hkeep
      · split at hkeep'
        · exact hne (Option.some.inj (hkeep'.trans hkeep.symm))
        · cases hkeep'
      · cases hkeep

/-! ## The items that count after an upgrade -/

/-- The items of the package that count after the upgrade have the fixed version. -/
theorem counted_upgrade (hset : ∀ l x, x ∈ iterate l ↔ x ∈ l) (hevr : fam = .rpm → ∀ it ∈ items, HasEvr dg it.version)
    (hfixed : fam = .rpm → Plain fixed) (h : _kernel_filter dg word iterate fam items running = .ok k) {d : Counted}
    (hd : d ∈ k.kept.filterMap (keyed dg fam)) (hpackage : d.package = package)
    (hlt : (PackageVersions.reading dg fam).Lt d.version fixed)
    (h' : _kernel_filter dg word iterate fam (items.map (upgrade dg fam k.kept package fixed)) running = .ok k') {c : Counted}
    (hc : c ∈ k'.kept.filterMap (keyed dg fam)) (hcpackage : c.package = package) : c.version = fixed := by
  obtain ⟨new, hnew, hkeyed⟩ := List.mem_filterMap.mp hc
  obtain ⟨u, hu, hukeyed⟩ := List.mem_filterMap.mp hd
  suffices hold : ∃ it ∈ k.kept, upgrade dg fam k.kept package fixed it = new by
    obtain ⟨it, hit, rfl⟩ := hold
    exact upgraded_version hit hkeyed hcpackage
  cases fam with
  | deb =>
    cases (debKernels_upgrade (upgrade dg .deb k.kept package fixed) (fun _ => upgrade_name) h).symm.trans h'
    exact List.mem_map.mp hnew
  | rpm =>
    obtain ⟨it, hit, rfl⟩ := List.mem_map.mp (kept_mem h' new hnew)
    have hitname : it.name = package := by
      rw [← hcpackage, keyed_rpm hkeyed, upgrade_name]
    have hd := keyed_rpm hukeyed
    refine ⟨it, rpmKernels_upgrade hset (hevr rfl) (hfixed rfl) h hu (kept_mem h u hu) ?_ ?_ ?_ h' hit hitname hnew, rfl⟩
    · rw [hukeyed]
      simp [hpackage]
    · rw [← hpackage, hd]
    · rwa [hd] at hlt

end

/-! ## Findings -/

section

variable {dg : UnicodeDigits} {word : Char → Bool} {iterate : List Str → List Str} {release : Release} {rows : List Row}
  {items : List SoftwareItem} {running : Option Str} {fam : Family} {hs : List Hit}

theorem counted_firm (hevr : fam = .rpm → ∀ it ∈ items, HasEvr dg it.version) {cs : List Counted}
    (h : counted dg word iterate fam items running = .ok cs) {c : Counted} (hc : c ∈ cs) :
    (PackageVersions.reading dg fam).FirmAt c.version := by
  obtain ⟨k, hk, rfl⟩ := counted_ok h
  obtain ⟨it, hit, hkeyed⟩ := List.mem_filterMap.mp hc
  cases fam with
  | deb => exact PackageVersions.hasRelease_deb dg c.version
  | rpm =>
    rw [keyed_rpm hkeyed]
    exact (hevr rfl it (kept_mem hk it hit)).firm

theorem hits_good (hevr : release.distro.family = .rpm → ∀ it ∈ items, HasEvr dg it.version)
    (h : hits dg word iterate release rows items running = .ok hs) {x : Hit} (hx : x ∈ hs) (hopen : x.state = .opened) :
    Good dg release.distro.family x := by
  obtain ⟨⟨cs, hcs, hitem⟩, row, hrow⟩ := mem_hits h hx
  have hstate := hrow.state
  rw [hopen, state_opened_iff] at hstate
  obtain ⟨y, hy, hlt⟩ := hstate.lt
  refine ⟨counted_firm hevr hcs hitem, ?_⟩
  rwa [hrow.fixed, given_getD hy]

theorem parts_merges {res : AssetAdvisories} {m : Merged} (h : Parts dg word iterate release rows items running res hs m) :
    Merges dg release.distro.family hs m := by
  have hrun : Merges dg release.distro.family ([] ++ hs) m := merges_nil.run h.merged
  simpa using hrun

/-- A finding says what the entry of its key does. -/
theorem finding_entry {res : AssetAdvisories} {m : Merged} (h : Parts dg word iterate release rows items running res hs m)
    {f : Finding} (hf : f ∈ res.findings) :
    ∃ o, Dict.get m.opened (f.package, f.cve_id) = some o ∧ f.installed = o.installed ∧ f.fixed_in = o.fix.1 ∧
      f.availability = o.fix.2 ∧
      Entry dg release.distro.family (opens hs (f.package, f.cve_id)) (f.package, f.cve_id) o := by
  have hm := parts_merges h
  obtain ⟨⟨key, o⟩, he, newest, hfinding⟩ := h.finding f hf
  obtain ⟨hpackage, hcve, hinstalled, hfixed, havail⟩ := finding_fields hfinding
  have hget := Dict.get_of_mem _ hm.nodup key o he
  have hentry := hm.some key o hget
  have hkey : (f.package, f.cve_id) = key := Prod.ext (hpackage.trans hentry.package) (hcve.trans hentry.cve)
  exact ⟨o, hkey ▸ hget, hinstalled, hfixed, havail, hkey ▸ hentry⟩

theorem mem_opens {key : Key} {x : Hit} (h : x ∈ opens hs key) : x ∈ hs ∧ x.key = key ∧ x.state = .opened :=
  ⟨List.mem_of_mem_filter h, of_decide_eq_true (List.mem_filter.mp h).2⟩

theorem opens_good (hevr : release.distro.family = .rpm → ∀ it ∈ items, HasEvr dg it.version)
    (h : hits dg word iterate release rows items running = .ok hs) (key : Key) :
    ∀ o ∈ opens hs key, Good dg release.distro.family o := fun _ ho =>
  hits_good hevr h (mem_opens ho).1 (mem_opens ho).2.2

/-! ## What a result says -/

section

variable (dg) (word) (iterate) (release) (rows) (items) (running)

/-- A row that is open at the fix of a finding: one of Ubuntu Pro where the fix is a standard one, or one that was open at
no version that counted -/
structure Remains (cs : List Counted) (f : Finding) (row : Row) : Prop where
  mem : row ∈ rows
  ofRelease : row.release = release
  package : row.package = f.package
  cve : f.cve_id ∈ row.cves
  opened : InInterval dg release.distro.family f.fixed_in row
  source : row.availability = .pro ∧ f.availability = .standard ∨
    ∀ c ∈ cs, c.package = f.package → ¬ InInterval dg release.distro.family c.version row

structure Sound (k : Kernels) (res : AssetAdvisories) : Prop where
  below : ∀ f ∈ res.findings, ∃ r, PackageVersions.compare dg release.distro.family f.installed f.fixed_in = .ok r ∧ r < 0
  complete : ∀ c ∈ k.kept.filterMap (keyed dg release.distro.family), ∀ row ∈ rows, row.release = release →
    row.package = c.package → InInterval dg release.distro.family c.version row → ∀ cve ∈ row.cves,
      ∃ f ∈ res.findings, f.package = c.package ∧ f.cve_id = cve
  disjoint : ∀ f ∈ res.findings, ∀ u ∈ res.unfixed, (f.package, f.cve_id) ≠ (u.package, u.cve_id)
  closes : ∀ f ∈ res.findings, (release.distro.family = .rpm → Plain f.fixed_in) → ∀ flag res',
    analyse dg word iterate release rows (items.map (upgrade dg release.distro.family k.kept f.package f.fixed_in)) running
      flag = .ok res' →
    ∀ g ∈ res'.findings, g.package = f.package → g.cve_id = f.cve_id →
      ∃ row, Remains dg release rows (k.kept.filterMap (keyed dg release.distro.family)) f row

end

variable {k : Kernels} {res : AssetAdvisories} {m : Merged}

/-- The installed version of a finding is below its fix, and is one of an open hit. -/
theorem finding_below (hevr : release.distro.family = .rpm → ∀ it ∈ items, HasEvr dg it.version)
    (h : Parts dg word iterate release rows items running res hs m) {f : Finding} (hf : f ∈ res.findings) :
    (PackageVersions.reading dg release.distro.family).Lt f.installed f.fixed_in ∧
      ∃ x ∈ opens hs (f.package, f.cve_id), x.item.version = f.installed := by
  obtain ⟨o, -, hinstalled, hfixed, -, hentry⟩ := finding_entry h hf
  have hgood := opens_good hevr h.hits (f.package, f.cve_id)
  rw [hinstalled, hfixed]
  exact ⟨hentry.lt_fix hgood, (hentry.lowest hgood).1⟩

/-- An open row gives a finding. -/
theorem finding_of_open (h : Parts dg word iterate release rows items running res hs m) {cs : List Counted}
    (hcs : counted dg word iterate release.distro.family items running = .ok cs) {c : Counted} (hc : c ∈ cs) {row : Row}
    (hrow : row ∈ rows) (hrelease : row.release = release) (hpackage : row.package = c.package)
    (hin : InInterval dg release.distro.family c.version row) {cve : Str} (hcve : cve ∈ row.cves) :
    ∃ f ∈ res.findings, f.package = c.package ∧ f.cve_id = cve := by
  have hm := parts_merges h
  obtain ⟨x, hx, hitem, hxcve, -, -, hopen⟩ := hits_opened h.hits hcs hc hrow hrelease hpackage hin hcve
  have hkey : x.key = (c.package, cve) := by rw [Hit.key, hitem, hxcve]
  have hmem : x ∈ opens hs (c.package, cve) := List.mem_filter.mpr ⟨hx, decide_eq_true ⟨hkey, hopen⟩⟩
  cases hget : Dict.get m.opened (c.package, cve) with
  | none =>
    rw [hm.none _ hget] at hmem
    cases hmem
  | some o =>
    obtain ⟨f, hf, newest, hfinding⟩ := h.found _ (Dict.mem_of_get _ _ _ hget)
    obtain ⟨hfpackage, hfcve, -⟩ := finding_fields hfinding
    have hentry := hm.some _ o hget
    exact ⟨f, hf, hfpackage.trans hentry.package, hfcve.trans hentry.cve⟩

/-- No finding is without a fix. -/
theorem finding_not_unfixed (h : Parts dg word iterate release rows items running res hs m) {f : Finding} (hf : f ∈ res.findings) {u : Unfixed}
    (hu : u ∈ res.unfixed) : (f.package, f.cve_id) ≠ (u.package, u.cve_id) := by
  obtain ⟨e, he, hnot, hpackage, hcve⟩ := h.unfixed u hu
  obtain ⟨hepackage, hecve⟩ := (parts_merges h).unfixed e he
  intro hkey
  obtain ⟨o, hget, -⟩ := finding_entry h hf
  have hsame : (f.package, f.cve_id) = e.1 :=
    hkey.trans (Prod.ext (hpackage.trans hepackage) (hcve.trans hecve))
  rw [hsame] at hget
  have hnone := (Dict.get_eq_none m.opened e.1).mpr hnot
  rw [hget] at hnone
  cases hnone

/-- A row of the fix's availability that was open at a version that counted is closed at the fix. -/
theorem not_open_at_fix (hevr : release.distro.family = .rpm → ∀ it ∈ items, HasEvr dg it.version)
    (h : Parts dg word iterate release rows items running res hs m) {cs : List Counted}
    (hcs : counted dg word iterate release.distro.family items running = .ok cs) {f : Finding} (hf : f ∈ res.findings)
    {c : Counted} (hc : c ∈ cs) (hcpackage : c.package = f.package) {row : Row} (hrow : row ∈ rows)
    (hrelease : row.release = release) (hpackage : row.package = f.package) (hcve : f.cve_id ∈ row.cves)
    (hin : InInterval dg release.distro.family c.version row)
    (hsource : ¬ (row.availability = .pro ∧ f.availability = .standard)) :
    ¬ InInterval dg release.distro.family f.fixed_in row := by
  intro hopened
  obtain ⟨o, -, -, hfixed, havail, hentry⟩ := finding_entry h hf
  obtain ⟨x, hx, hitem, hxcve, hxfixed, hxavail, hopen⟩ :=
    hits_opened h.hits hcs hc hrow hrelease (hpackage.trans hcpackage.symm) hin hcve
  have hmem : x ∈ opens hs (f.package, f.cve_id) :=
    List.mem_filter.mpr ⟨hx, decide_eq_true ⟨by rw [Hit.key, hitem, hxcve, hcpackage], hopen⟩⟩
  have hgood := opens_good hevr h.hits (f.package, f.cve_id)
  have hsame : x.avail = o.fix.2 := by
    cases hrowavail : row.availability with
    | standard =>
      have hstandard := hxavail.trans hrowavail
      exact hstandard.trans (hentry.fix_standard hgood hmem hstandard).symm
    | pro =>
      cases hfix : o.fix.2 with
      | pro => exact hxavail.trans hrowavail
      | standard => exact absurd ⟨hrowavail, havail.trans hfix⟩ hsource
  obtain ⟨y, hy, hlt⟩ := hopened.lt
  have hle := (hentry.fix hgood).2 x hmem hsame
  rw [hxfixed, given_getD hy, ← hfixed] at hle
  exact hlt.not_le hle

theorem remains_of_finding (hset : ∀ l x, x ∈ iterate l ↔ x ∈ l)
    (hevr : release.distro.family = .rpm → ∀ it ∈ items, HasEvr dg it.version)
    (hk : _kernel_filter dg word iterate release.distro.family items running = .ok k)
    (h : Parts dg word iterate release rows items running res hs m) {f : Finding} (hf : f ∈ res.findings)
    (hfixed : release.distro.family = .rpm → Plain f.fixed_in) {flag : Bool} {res' : AssetAdvisories}
    (h' : analyse dg word iterate release rows
      (items.map (upgrade dg release.distro.family k.kept f.package f.fixed_in)) running flag = .ok res')
    {g : Finding} (hg : g ∈ res'.findings) (hgpackage : g.package = f.package) (hgcve : g.cve_id = f.cve_id) :
    ∃ row, Remains dg release rows (k.kept.filterMap (keyed dg release.distro.family)) f row := by
  obtain ⟨hlt, x, hx, hversion⟩ := finding_below hevr h hf
  obtain ⟨hxmem, hxkey, -⟩ := mem_opens hx
  obtain ⟨⟨cs, hcs, hxitem⟩, -⟩ := mem_hits h.hits hxmem
  obtain ⟨k₁, hk₁, rfl⟩ := counted_ok hcs
  cases hk.symm.trans hk₁
  obtain ⟨hs', m', hparts'⟩ := analyse_ok h'
  obtain ⟨o, -, -, -, -, hentry⟩ := finding_entry hparts' hg
  obtain ⟨y, hy⟩ := List.exists_mem_of_ne_nil _ hentry.opened
  obtain ⟨hymem, hykey, hyopen⟩ := mem_opens hy
  obtain ⟨⟨cs', hcs', hyitem⟩, row, hrow⟩ := mem_hits hparts'.hits hymem
  obtain ⟨k', hk', rfl⟩ := counted_ok hcs'
  have hypackage : y.item.package = f.package := (congrArg Prod.fst hykey).trans hgpackage
  have hycve : y.cve = f.cve_id := (congrArg Prod.snd hykey).trans hgcve
  have hfix : y.item.version = f.fixed_in :=
    counted_upgrade hset hevr hfixed hk hxitem (congrArg Prod.fst hxkey) (hversion ▸ hlt) hk' hyitem hypackage
  have hopened := hrow.state
  rw [hyopen, state_opened_iff, hfix] at hopened
  refine ⟨row, hrow.mem, hrow.ofRelease, hrow.package.trans hypackage, hycve ▸ hrow.cve, hopened, ?_⟩
  by_contra hno
  push Not at hno
  obtain ⟨hsource, c, hc, hcpackage, hin⟩ := hno
  exact not_open_at_fix hevr h hcs hf hc hcpackage hrow.mem hrow.ofRelease (hrow.package.trans hypackage) (hycve ▸ hrow.cve)
    hin (fun hboth => hsource hboth.1 hboth.2) hopened

/-- Findings are below their fix, complete and apart from what has no fix; what is found again at the fix is in a row that the
fix was not taken from. -/
theorem analyse_sound (hset : ∀ l x, x ∈ iterate l ↔ x ∈ l)
    (hevr : release.distro.family = .rpm → ∀ it ∈ items, HasEvr dg it.version) {reboot_required : Bool}
    (h : analyse dg word iterate release rows items running reboot_required = .ok res) :
    ∃ k, _kernel_filter dg word iterate release.distro.family items running = .ok k ∧
      Sound dg word iterate release rows items running k res := by
  obtain ⟨hs, m, hparts⟩ := analyse_ok h
  obtain ⟨cs, -, hcs, -, -⟩ := hits_ok hparts.hits
  obtain ⟨k, hk, rfl⟩ := counted_ok hcs
  refine ⟨k, hk, fun f hf => ?_, fun c hc row hrow hrelease hpackage hin cve hcve => ?_, fun f hf u hu => ?_,
    fun f hf hfixed flag res' h' g hg hgpackage hgcve => ?_⟩
  · obtain ⟨r, hr, hneg⟩ := (finding_below hevr hparts hf).1.compare
    exact ⟨r, (PackageVersions.compare_reading dg _ _ _).trans hr, hneg⟩
  · exact finding_of_open hparts hcs hc hrow hrelease hpackage hin hcve
  · exact finding_not_unfixed hparts hf hu
  · exact remains_of_finding hset hevr hk hparts hf hfixed h' hg hgpackage hgcve

end

/-! ## Fixes that leave a CVE open -/

def wordChar (c : Char) : Bool := c.isAlphanum || c = '_'

def rocky : Release := ⟨.rocky, lit "9"⟩

def jammy : Release := ⟨.ubuntu, lit "22.04"⟩

def advisoryRow (release : Release) (package : Str) (introduced : Option Str) (fixed : Str) (availability : Availability) : Row :=
  ⟨release, [], package, lit "ADV-1", .advisory, introduced, some fixed, none, [lit "CVE-1"], none, availability, none, none, 0⟩

def installedItem (name version : Str) : SoftwareItem := ⟨name, version, none, none⟩

theorem kernel_core_sound : ∃ k, _kernel_filter asciiOnly wordChar List.dedup .rpm
      [installedItem (lit "kernel-core") (lit "5.14.0-1")] none = .ok k ∧
    Sound asciiOnly wordChar List.dedup rocky [advisoryRow rocky (lit "kernel-core") none (lit "5.14.0-2") .standard]
      [installedItem (lit "kernel-core") (lit "5.14.0-1")] none k
      ⟨some (lit "5.14.0-1"), false, [⟨lit "CVE-1", lit "kernel-core", [lit "kernel-core"], lit "5.14.0-1", lit "5.14.0-2",
        .standard, [lit "ADV-1"], none, none, true, false⟩], []⟩ :=
  analyse_sound (fun _ _ => List.mem_dedup)
    (fun _ it hit => by
      obtain rfl := List.mem_singleton.mp hit
      exact ⟨⟨forall_mem_of_all (by with_unfolding_all decide), by with_unfolding_all decide⟩,
        by with_unfolding_all decide⟩)
    (show analyse asciiOnly wordChar List.dedup rocky _ _ none false = .ok _ by with_unfolding_all decide)

/-- After the upgrade of any finding, it is not found again. -/
def Closes (release : Release) (rows : List Row) (items : List SoftwareItem) : Prop :=
  ∀ k res, _kernel_filter asciiOnly wordChar List.dedup release.distro.family items none = .ok k →
    analyse asciiOnly wordChar List.dedup release rows items none false = .ok res → ∀ f ∈ res.findings, ∀ res',
      analyse asciiOnly wordChar List.dedup release rows
        (items.map (upgrade asciiOnly release.distro.family k.kept f.package f.fixed_in)) none false = .ok res' →
      ∀ g ∈ res'.findings, ¬ (g.package = f.package ∧ g.cve_id = f.cve_id)

def foundAgain (release : Release) (rows : List Row) (items : List SoftwareItem) : Bool :=
  match _kernel_filter asciiOnly wordChar List.dedup release.distro.family items none,
    analyse asciiOnly wordChar List.dedup release rows items none false with
  | .ok k, .ok res => res.findings.any fun f =>
    match analyse asciiOnly wordChar List.dedup release rows
      (items.map (upgrade asciiOnly release.distro.family k.kept f.package f.fixed_in)) none false with
    | .ok res' => res'.findings.any fun g => g.package = f.package ∧ g.cve_id = f.cve_id
    | .error _ => false
  | _, _ => false

theorem not_closes {release : Release} {rows : List Row} {items : List SoftwareItem} (h : foundAgain release rows items = true) :
    ¬ Closes release rows items := by
  intro hcloses
  unfold foundAgain at h
  split at h
  · next k res hk hres =>
    obtain ⟨f, hf, h⟩ := List.any_eq_true.mp h
    split at h
    · next res' hres' =>
      obtain ⟨g, hg, h⟩ := List.any_eq_true.mp h
      exact hcloses k res hk hres f hf res' hres' g hg (of_decide_eq_true h)
    · cases h
  · cases h

/-- A CVE is found again in a row of Ubuntu Pro, in a row that begins at the fix, and where a second epoch is read. -/
theorem fix_leaves_open :
    ¬ Closes jammy [advisoryRow jammy (lit "openssl") none (lit "1.0-2") .standard,
        advisoryRow jammy (lit "openssl") none (lit "1.0-3") .pro] [installedItem (lit "openssl") (lit "1.0-1")] ∧
      ¬ Closes jammy [advisoryRow jammy (lit "openssl") none (lit "1.0-2") .standard,
        advisoryRow jammy (lit "openssl") (some (lit "1.0-2")) (lit "1.0-3") .standard]
          [installedItem (lit "openssl") (lit "1.0-1")] ∧
      ¬ Closes rocky [advisoryRow rocky (lit "kernel-core") none (lit "0:0:~5-1") .standard]
        [installedItem (lit "kernel-core") (lit "0~4-1"), installedItem (lit "kernel-core") (lit "0~3-1")] :=
  ⟨not_closes (by with_unfolding_all decide), not_closes (by with_unfolding_all decide), not_closes
    (by with_unfolding_all decide)⟩

end AdvisoryUpgrade
