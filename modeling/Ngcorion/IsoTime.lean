import Ngcorion.Gregorian
import Ngcorion.LocalTime
import Ngcorion.Text
import Mathlib.Algebra.GroupWithZero.Nat

/-!
# Times of UTC as ISO 8601 texts

A time has a date with a year of four digits and the microseconds of its day. Its text is read back.
-/
namespace IsoTime

open Text LocalTime

structure Stamp where
  date : Gregorian.Date
  year_pos : 0 ≤ date.year
  year_le : date.year ≤ 9999
  /-- The microseconds since midnight -/
  time : Nat
  time_lt : time < 86400000000

/-- The time in microseconds from the first midnight of the calendar -/
def Stamp.instant (t : Stamp) : Int := midnight t.date.ordinal + t.time

/-! ## Numbers of a fixed width -/

def pad : Nat → Nat → Str
  | 0, _ => []
  | width + 1, n => pad width (n / 10) ++ [Nat.digitChar (n % 10)]

def digitValue (c : Char) : Option Nat := if c.isDigit then some (c.toNat - 48) else none

/-- So many digits -/
def number : Nat → Str → Option (Nat × Str)
  | 0, s => some (0, s)
  | width + 1, s => do
    let (n, rest) ← number width s
    let c ← rest.head?
    let d ← digitValue c
    return (10 * n + d, rest.tail)

theorem digitValue_digitChar : ∀ d < 10, digitValue (Nat.digitChar d) = some d := by decide

theorem number_pad {width n : Nat} (h : n < 10 ^ width) (rest : Str) : number width (pad width n ++ rest) = some (n, rest) := by
  induction width generalizing n rest with
  | zero =>
    obtain rfl : n = 0 := by simpa using h
    rfl
  | succ width ih =>
    have hlt : n / 10 < 10 ^ width := by
      rw [Nat.pow_succ] at h
      omega
    rw [number, pad, List.append_assoc, ih hlt]
    have hdigit := digitValue_digitChar (n % 10) (by omega)
    simp only [Option.bind_eq_bind, Option.bind_some, List.cons_append, List.nil_append, List.head?_cons, hdigit, List.tail_cons,
      Option.pure_def]
    congr 2
    omega

/-! ## Texts -/

/-- `isoformat` in UTC; a whole second has no fraction. -/
def isoformat (t : Stamp) : Str :=
  pad 4 t.date.year.toNat ++ '-' :: pad 2 t.date.month.toNat ++ '-' :: pad 2 t.date.day.toNat ++ 'T' ::
    pad 2 (t.time / 3600000000) ++ ':' :: pad 2 (t.time / 60000000 % 60) ++ ':' :: pad 2 (t.time / 1000000 % 60) ++
    (if t.time % 1000000 = 0 then [] else '.' :: pad 6 (t.time % 1000000)) ++ lit "+00:00"

/-- A character that must come next -/
def expect (c : Char) (s : Str) : Option Str := if s.head? = some c then some s.tail else none

/-- The fraction of a second, if there is one -/
def fraction (s : Str) : Option (Nat × Str) := if s.head? = some '.' then number 6 s.tail else some (0, s)

def stamp (year month day time : Nat) : Option Stamp :=
  if h : year ≤ 9999 ∧ 1 ≤ month ∧ month ≤ 12 ∧ 1 ≤ day ∧ (day : Int) ≤ Gregorian.monthLength year month ∧ time < 86400000000 then
    some
      { date :=
          { year := year
            month := month
            day := day
            month_pos := by omega
            month_le := by omega
            day_pos := by omega
            day_le := h.2.2.2.2.1 }
        year_pos := by
          dsimp only
          omega
        year_le := by
          dsimp only
          omega
        time := time
        time_lt := h.2.2.2.2.2 }
  else none

/-- The time of a text that `isoformat` writes -/
def parse (s : Str) : Option Stamp := do
  let (year, s) ← number 4 s
  let s ← expect '-' s
  let (month, s) ← number 2 s
  let s ← expect '-' s
  let (day, s) ← number 2 s
  let s ← expect 'T' s
  let (hours, s) ← number 2 s
  let s ← expect ':' s
  let (minutes, s) ← number 2 s
  let s ← expect ':' s
  let (seconds, s) ← number 2 s
  let (micros, s) ← fraction s
  if s = lit "+00:00" then stamp year month day (hours * 3600000000 + minutes * 60000000 + seconds * 1000000 + micros)
  else none

theorem expect_cons (c : Char) (s : Str) : expect c (c :: s) = some s := by simp [expect]

theorem fraction_text {n : Nat} (h : n < 1000000) :
    fraction ((if n = 0 then [] else '.' :: pad 6 n) ++ lit "+00:00") = some (n, lit "+00:00") := by
  split
  · rename_i hzero
    rw [hzero, List.nil_append, fraction, if_neg (by with_unfolding_all decide)]
  · rw [fraction, List.cons_append, List.head?_cons, if_pos rfl]
    exact number_pad (by omega) _

/-- The parts of a time make the time again. -/
theorem stamp_self (t : Stamp) : stamp t.date.year.toNat t.date.month.toNat t.date.day.toNat t.time = some t := by
  obtain ⟨⟨year, month, day, month_pos, month_le, day_pos, day_le⟩, year_pos, year_le, time, time_lt⟩ := t
  dsimp only at year_pos year_le ⊢
  have hlength := Gregorian.monthLength_bounds (y := year) month_pos month_le
  have hyear : ((year.toNat : Nat) : Int) = year := Int.toNat_of_nonneg year_pos
  have hmonth : ((month.toNat : Nat) : Int) = month := Int.toNat_of_nonneg (by omega)
  have hday : ((day.toNat : Nat) : Int) = day := Int.toNat_of_nonneg (by omega)
  rw [stamp, dif_pos ⟨by omega, by omega, by omega, by omega, by rw [hyear, hmonth, hday]; exact day_le, time_lt⟩]
  simp only [hyear, hmonth, hday]

theorem parse_isoformat (t : Stamp) : parse (isoformat t) = some t := by
  have hlength := Gregorian.monthLength_bounds (y := t.date.year) t.date.month_pos t.date.month_le
  have hpos := t.date.month_pos
  have hle := t.date.month_le
  have hdpos := t.date.day_pos
  have hdle := t.date.day_le
  have hypos := t.year_pos
  have hyle := t.year_le
  have hlt := t.time_lt
  have hy : t.date.year.toNat < 10 ^ 4 := by omega
  have hm : t.date.month.toNat < 10 ^ 2 := by omega
  have hd : t.date.day.toNat < 10 ^ 2 := by omega
  have hhours : t.time / 3600000000 < 10 ^ 2 := by omega
  have hminutes : t.time / 60000000 % 60 < 10 ^ 2 := by omega
  have hseconds : t.time / 1000000 % 60 < 10 ^ 2 := by omega
  have hmicros : t.time % 1000000 < 1000000 := by omega
  have htime : t.time / 3600000000 * 3600000000 + t.time / 60000000 % 60 * 60000000 + t.time / 1000000 % 60 * 1000000 +
      t.time % 1000000 = t.time := by omega
  unfold isoformat parse
  simp only [List.append_assoc, List.cons_append]
  simp only [number_pad hy, number_pad hm, number_pad hd, number_pad hhours, number_pad hminutes, number_pad hseconds, expect_cons,
    fraction_text hmicros, Option.bind_eq_bind, Option.bind_some, if_true]
  rw [htime, stamp_self]

end IsoTime
