import Ngcorion.Advisories.DebOrder
import Ngcorion.Advisories.OsvRecords
import Ngcorion.Advisories.RpmVersions
import Ngcorion.KeyOrder

/-!
# Package versions by family

`compare` goes by dpkg's rules or by rpm's. An rpm version without a release is level with every release of it, so the
order is transitive through versions that have one.
-/
namespace PackageVersions

open Text PaddedOrder DebVersions DebOrder RpmVersions KeyOrder
open OsvRecords (Family)

section

variable (dg : UnicodeDigits)

def compare (kind : Family) (a b : Str) : Except PyError Int :=
  match kind with
  | .deb => deb_compare dg a b
  | .rpm => rpm_compare dg a b

def debReading : Reading Str PyError where
  Key := Int × Str × Str
  read := _deb_split dg
  cmp := compareSplit dg
  Firm _ := True
  soft := soft_of_trans _

def compareVersion : Int × Str → Int × Str → Ordering := compareLex (compareOn Prod.fst) (onto Prod.snd compareTokens)

instance : Std.TransCmp compareVersion := by unfold compareVersion; infer_instance

/-- Epoch and version, and the release where there is one -/
def evrKey (v : Int × Str × Str) : (Int × Str) × Option Str := ((v.1, v.2.1), if v.2.2 = [] then none else some v.2.2)

def rpmReading : Reading Str PyError where
  Key := (Int × Str) × Option Str
  read v := (_rpm_split dg v).map evrKey
  cmp := openTail compareVersion compareTokens
  Firm k := k.2.isSome = true
  soft := soft_openTail _ _

def reading : Family → Reading Str PyError
  | .deb => debReading dg
  | .rpm => rpmReading dg

theorem deb_compare_reading (a b : Str) : deb_compare dg a b = (debReading dg).compare a b := deb_compare_order dg a b

theorem rpm_compare_reading (a b : Str) : rpm_compare dg a b = (rpmReading dg).compare a b := by
  have hkeys : (rpmReading dg).compare a b = (do
      let ka ← (_rpm_split dg a).map evrKey
      let kb ← (_rpm_split dg b).map evrKey
      return sign (openTail compareVersion compareTokens ka kb)) := rfl
  rw [hkeys, rpm_compare]
  cases _rpm_split dg a with
  | error e => rfl
  | ok va =>
    cases _rpm_split dg b with
    | error e => rfl
    | ok vb =>
      obtain ⟨ea, ua, ra⟩ := va
      obtain ⟨eb, ub, rb⟩ := vb
      simp only [bind, Except.bind, pure, Except.pure, Except.map, evrKey, openTail, compareVersion, compareLex, compareOn,
        onto, rpmvercmp_eq]
      rcases Int.lt_trichotomy ea eb with h | h | h
      · simp [Int.ne_of_lt h, h, Int.compare_eq_lt.mpr h, sign]
      · subst h
        rw [Int.compare_eq_eq.mpr rfl, Ordering.eq_then]
        cases hc : compareTokens ua ub with
        | lt => simp [sign]
        | gt => simp [sign]
        | eq => by_cases hra : ra = [] <;> by_cases hrb : rb = [] <;> simp [hra, hrb, tail, sign]
      · simp [Int.ne_of_gt h, Int.le_of_lt h, Int.compare_eq_gt.mpr h, sign]

theorem compare_reading (kind : Family) (a b : Str) : compare dg kind a b = (reading dg kind).compare a b := by
  cases kind with
  | deb => exact deb_compare_reading dg a b
  | rpm => exact rpm_compare_reading dg a b

/-- A version that has a release, where the family asks for one -/
def HasRelease (kind : Family) (v : Str) : Prop := (reading dg kind).FirmAt v

theorem hasRelease_deb (v : Str) : HasRelease dg .deb v := fun _ _ => trivial

theorem hasRelease_rpm {v : Str} (h : (evr dg (strip v)).2.2 ≠ []) : HasRelease dg .rpm v := by
  intro k hk
  have hread : (_rpm_split dg v).map evrKey = .ok k := hk
  have hrelease : ∀ w, _rpm_split dg v = .ok w → w.2.2 ≠ [] := by
    intro w hw
    unfold _rpm_split at hw
    dsimp only at hw
    split at hw
    · cases hw
    · split at hw
      · cases hw
        exact h
      · split at hw
        · cases hw
          exact h
        · cases hw
  cases hw : _rpm_split dg v with
  | error e =>
    rw [hw] at hread
    cases hread
  | ok w =>
    rw [hw] at hread
    cases hread
    change (evrKey w).2.isSome = true
    simp [evrKey, hrelease w hw]

end

end PackageVersions
