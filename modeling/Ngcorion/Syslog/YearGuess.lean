import Mathlib.Data.List.TakeWhile
import Ngcorion.Syslog.Parser

/-!
# The year of a BSD timestamp

A BSD time has no year, and `_bsd` guesses one: this year, or last year when that would put the time more than
a day ahead. For a time of the 364 days before and the day after the clock of the server the guess is right
when the time lies in this year, or in the last one and is not its 29 February. A time of the next year, as
devices ahead of the server send it at New Year, is taken for one of this year.
-/
namespace YearGuess

open Text IsoTime LocalTime SyslogParser

/-! ## Messages -/

/-- `Mmm dd hh:mm:ss`, the day with a blank in front when it has one digit. -/
def dayText (n : Nat) : Str := if n < 10 then [' ', Nat.digitChar n] else pad 2 n

def monthText (t : Datetime) : Str := (months[t.1.date.month.toNat - 1]?).getD []

def rendered (t : Datetime) : Str :=
  monthText t ++ ' ' :: (dayText t.1.date.day.toNat ++ ' ' :: (pad 2 (t.1.time / 3600000000) ++ ':' ::
    (pad 2 (t.1.time / 60000000 % 60) ++ ':' :: pad 2 (t.1.time / 1000000 % 60))))

/-- The priority in front of a header -/
def priorityText (priority : Option (Fin 192)) : Str := priority.elim [] (fun n => '<' :: Nat.toDigits 10 n ++ ['>'])

section
variable (tb : Tables)

/-- A stamp at the start of a text -/
def stamped (s : Str) : Bool := (bsdTime tb s).isSome || (yearTime tb s).isSome || (isoTime tb s).isSome

/-- What follows the header in the text that is left of a body. -/
def afterHeader (body : Str) : Str := (skipZone (' ' :: cut body)).getD []

/-- A message whose header is the BSD time of a device, in whole seconds; the body has no header of its own. -/
structure Message where
  priority : Option (Fin 192)
  sent : Datetime
  whole : sent.1.time % 1000000 = 0
  body : Str
  alone : stamped tb (dropSeq tb (splitHost tb (afterHeader body)).2) = false

variable {tb} in
def Message.text (m : Message tb) : Str :=
  priorityText m.priority ++ (rendered m.sent ++ ' ' :: m.body)

end

/-- Something is left of a body when the end of the message is cut. -/
def Speaks (body : Str) : Prop := ∃ c ∈ body, trailing c = false

/-! ## The end of a message -/

theorem cut_append_of_speaks {body : Str} (h : Speaks body) (s : Str) : cut (s ++ body) = s ++ cut body := by
  obtain ⟨c, hc, hleft⟩ := h
  have hne : body.reverse.dropWhile trailing ≠ [] := by
    rw [Ne, List.dropWhile_eq_nil_iff]
    intro hall
    have := hall c (by simpa using hc)
    simp [hleft] at this
  rw [cut, cut, List.reverse_append, List.dropWhile_append, if_neg (by simpa using hne), List.reverse_append,
    List.reverse_reverse]

theorem cut_append_of_not_speaks {body : Str} (h : ¬ Speaks body) (s : Str) : cut (s ++ body) = cut s := by
  have hall : ∀ c ∈ body.reverse, trailing c = true := by
    intro c hc
    by_contra hleft
    exact h ⟨c, by simpa using hc, by simpa using hleft⟩
  rw [cut, cut, List.reverse_append, List.dropWhile_append_of_pos hall]

theorem cut_concat {c : Char} (h : trailing c = false) (s : Str) : cut (s ++ [c]) = s ++ [c] := by
  simp [cut, h]

/-! ## Patterns on ASCII texts -/

theorem run_append {p : Char → Bool} {lo hi : Nat} {w : Str} {c : Char} (hw : ∀ a ∈ w, p a = true) (hc : p c = false)
    (hlo : lo ≤ w.length) (hhi : w.length ≤ hi) (r : Str) : run p lo hi (w ++ c :: r) = some (w, c :: r) := by
  have htake : ((w ++ c :: r).take hi).takeWhile p = w := by
    rw [List.take_append, List.take_of_length_le hhi, List.takeWhile_append_of_pos hw]
    cases hi - w.length with
    | zero => simp
    | succ k => simp [hc]
  rw [run, htake, if_pos hlo, List.drop_left]

/-- As many characters as there may be, whatever follows them. -/
theorem run_full {p : Char → Bool} {lo hi : Nat} {w : Str} (hw : ∀ a ∈ w, p a = true) (hlo : lo ≤ w.length)
    (hhi : w.length = hi) (r : Str) : run p lo hi (w ++ r) = some (w, r) := by
  have htake : ((w ++ r).take hi).takeWhile p = w := by
    rw [← hhi, List.take_left, List.takeWhile_eq_self_iff]
    exact hw
  rw [run, htake, if_pos hlo, List.drop_left]

theorem run_none {p : Char → Bool} {lo hi : Nat} {c : Char} (hc : p c = false) (hlo : 0 < lo) (r : Str) :
    run p lo hi (c :: r) = none := by
  cases hi with
  | zero => simp [run, Nat.not_le.mpr hlo]
  | succ hi => simp [run, hc, Nat.not_le.mpr hlo]

/-- The number that ASCII digits write. -/
def value (ds : Str) : Nat := ds.foldl (fun n c => 10 * n + (digitValue c).getD 0) 0

def Digits (ds : Str) : Prop := ∀ c ∈ ds, c.toNat < 128 ∧ c.isDigit = true

instance (ds : Str) : Decidable (Digits ds) :=
  decidable_of_iff (ds.all (fun c => decide (c.toNat < 128 ∧ c.isDigit = true)) = true) (by simp [Digits])

theorem pad_two : ∀ n < 100, Digits (pad 2 n) ∧ (pad 2 n).length = 2 ∧ value (pad 2 n) = n := by
  with_unfolding_all decide

theorem dayText_eq : ∀ n < 32, 1 ≤ n → dayText n = (if n < 10 then [' '] else []) ++ Nat.toDigits 10 n ∧
    Digits (Nat.toDigits 10 n) ∧ 1 ≤ (Nat.toDigits 10 n).length ∧ (Nat.toDigits 10 n).length ≤ 2 ∧
    value (Nat.toDigits 10 n) = n := by
  with_unfolding_all decide

set_option maxRecDepth 2000 in
theorem priority_digits : ∀ n < 192, Digits (Nat.toDigits 10 n) ∧ 1 ≤ (Nat.toDigits 10 n).length ∧
    (Nat.toDigits 10 n).length ≤ 3 ∧ value (Nat.toDigits 10 n) = n := by
  with_unfolding_all decide

theorem months_shape : ∀ n < 12, monthName ((months[n]?).getD []) = some ((months[n]?).getD [], []) ∧
    monthOf ((months[n]?).getD []) = some (n + 1) := by
  with_unfolding_all decide

theorem monthName_eq_some {s w r : Str} (h : monthName s = some (w, r)) :
    ∃ a b c, s = a :: b :: c :: r ∧ w = [a, b, c] ∧ a.isUpper = true ∧ b.isLower = true ∧ c.isLower = true := by
  match s, h with
  | a :: b :: c :: s, h =>
    simp only [monthName] at h
    split at h
    · rename_i hcase
      simp only [Option.some.injEq, Prod.mk.injEq] at h
      simp only [Bool.and_eq_true] at hcase
      exact ⟨a, b, c, by rw [h.2], h.1.symm, hcase.1.1, hcase.1.2, hcase.2⟩
    · cases h

section
variable (tb : Tables)

theorem digit_some {ds : Str} (h : Digits ds) : ∀ c ∈ ds, (tb.digit c).isSome = true := by
  intro c hc
  rw [tb.digit_ascii c (h c hc).1, digitValue, if_pos (h c hc).2]
  rfl

theorem digits_value {ds : Str} (h : Digits ds) (n : Nat) :
    ds.foldl (fun n c => 10 * n + (tb.digit c).getD 0) n = ds.foldl (fun n c => 10 * n + (digitValue c).getD 0) n := by
  induction ds generalizing n with
  | nil => rfl
  | cons c ds ih =>
    rw [List.foldl_cons, List.foldl_cons, tb.digit_ascii c (h c List.mem_cons_self).1]
    exact ih (fun a ha => h a (List.mem_cons_of_mem c ha)) _

theorem digits_append {lo hi : Nat} {ds : Str} {c : Char} (h : Digits ds) (hc : c.toNat < 128) (hn : c.isDigit = false)
    (hlo : lo ≤ ds.length) (hhi : ds.length ≤ hi) (r : Str) :
    digits tb lo hi (ds ++ c :: r) = some (value ds, c :: r) := by
  have hstop : (tb.digit c).isSome = false := by
    rw [tb.digit_ascii c hc, digitValue, if_neg (by simp [hn])]
    rfl
  rw [digits, run_append (digit_some tb h) hstop hlo hhi]
  simp [value, digits_value tb h]

theorem digits_pad {n : Nat} (h : n < 100) (r : Str) : digits tb 2 2 (pad 2 n ++ r) = some (n, r) := by
  obtain ⟨hdigits, hlength, hvalue⟩ := pad_two n h
  rw [digits, run_full (digit_some tb hdigits) (by omega) hlength]
  rw [value] at hvalue
  simp [digits_value tb hdigits, hvalue]

theorem digits_none {lo hi : Nat} {c : Char} (hc : c.toNat < 128) (hn : c.isDigit = false) (hlo : 0 < lo) (r : Str) :
    digits tb lo hi (c :: r) = none := by
  have hstop : (tb.digit c).isSome = false := by
    rw [tb.digit_ascii c hc, digitValue, if_neg (by simp [hn])]
    rfl
  rw [digits, run_none hstop hlo]
  rfl

end

/-! ## Headers -/

/-- The clock that a header shows. -/
def clockOf (t : Datetime) : Clock where
  month := monthText t
  day := t.1.date.day.toNat
  hour := t.1.time / 3600000000
  minute := t.1.time / 60000000 % 60
  second := t.1.time / 1000000 % 60

theorem monthText_shape (t : Datetime) : ∃ a b c, monthText t = [a, b, c] ∧ a.isUpper = true ∧ b.isLower = true ∧
    c.isLower = true ∧ monthOf [a, b, c] = some t.1.date.month.toNat := by
  have hpos := t.1.date.month_pos
  have hle := t.1.date.month_le
  obtain ⟨hname, hof⟩ := months_shape (t.1.date.month.toNat - 1) (by omega)
  obtain ⟨a, b, c, hs, -, ha, hb, hc⟩ := monthName_eq_some hname
  rw [Nat.sub_add_cancel (by omega)] at hof
  exact ⟨a, b, c, hs, ha, hb, hc, by rw [← hs]; exact hof⟩

section
variable (tb : Tables)

theorem blanks_dayText {n : Nat} (hpos : 1 ≤ n) (h : n < 32) (r : Str) :
    blanks (' ' :: (dayText n ++ r)) = some (Nat.toDigits 10 n ++ r) := by
  obtain ⟨htext, hdigits, hlength, -, -⟩ := dayText_eq n h hpos
  obtain ⟨d, ds, hds⟩ := List.exists_cons_of_length_pos hlength
  have hd : d ≠ ' ' := by
    rintro rfl
    exact absurd (hdigits ' ' (by simp [hds])).2 (by decide)
  rw [blanks, expect_cons, htext, hds]
  split <;> simp [hd]

theorem clock_rendered (t : Datetime) (s : Str) :
    clock tb (rendered t ++ s) = (skipFraction tb 6 s).bind (fun s => (skipZone s).map (fun r => (clockOf t, r))) := by
  obtain ⟨a, b, c, hmonth, ha, hb, hc, -⟩ := monthText_shape t
  have hpos := t.1.date.day_pos
  have hle := t.1.date.day_le
  have hbound := (Gregorian.monthLength_bounds (y := t.1.date.year) t.1.date.month_pos t.1.date.month_le).2
  have hlt := t.1.time_lt
  have hday : 1 ≤ t.1.date.day.toNat ∧ t.1.date.day.toNat < 32 := by omega
  obtain ⟨-, hdigits, hlo, hhi, hvalue⟩ := dayText_eq _ hday.2 hday.1
  have hname (r : Str) : monthName (a :: b :: c :: r) = some ([a, b, c], r) := by simp [monthName, ha, hb, hc]
  have hnumber (r : Str) := @digits_append tb 1 2 _ ' ' hdigits (by decide) (by decide) hlo hhi r
  rw [rendered, hmonth, clock]
  simp only [List.cons_append, List.nil_append, List.append_assoc, hname, Option.bind_eq_bind, Option.bind_some,
    blanks_dayText hday.1 hday.2, hnumber, hvalue, expect_cons, digits_pad tb (show t.1.time / 3600000000 < 100 by omega),
    digits_pad tb (show t.1.time / 60000000 % 60 < 100 by omega), digits_pad tb (show t.1.time / 1000000 % 60 < 100 by omega)]
  simp only [clockOf, hmonth, Option.map_eq_bind, Function.comp_def, Option.pure_def]

/-- What the patterns see of the letters of a month. -/
theorem letter_facts : ∀ n < 128, ((Char.ofNat n).isUpper = true ∨ (Char.ofNat n).isLower = true) →
    (Char.ofNat n).isDigit = false ∧ (Char.ofNat n).isAlphanum = true := by
  with_unfolding_all decide

theorem letter_lt {c : Char} (h : c.isUpper = true ∨ c.isLower = true) : c.toNat < 128 := by
  refine alphanum_lt ?_
  rcases h with h | h <;> simp [Char.isAlphanum, isAlpha_eq, h]

theorem letter_spec {c : Char} (h : c.isUpper = true ∨ c.isLower = true) : c.isDigit = false ∧ c.isAlphanum = true := by
  have := letter_facts c.toNat (letter_lt h)
  rw [Char.ofNat_toNat] at this
  exact this h

theorem upper_ne {c d : Char} (h : c.isUpper = true) (hd : d.isUpper = false) : c ≠ d := by
  rintro rfl
  simp [hd] at h

/-- A text that begins with the name of a month. -/
def Head (s : Str) : Prop :=
  ∃ a b c u, s = a :: b :: c :: ' ' :: u ∧ a.isUpper = true ∧ b.isLower = true ∧ c.isLower = true

theorem head_rendered (t : Datetime) (s : Str) : Head (rendered t ++ s) := by
  obtain ⟨a, b, c, hmonth, ha, hb, hc, -⟩ := monthText_shape t
  rw [rendered, hmonth]
  exact ⟨a, b, c, _, rfl, ha, hb, hc⟩

theorem digits_head {s : Str} (h : Head s) {lo hi : Nat} (hlo : 0 < lo) : digits tb lo hi s = none := by
  obtain ⟨a, b, c, u, rfl, ha, -, -⟩ := h
  exact digits_none tb (letter_lt (.inl ha)) (letter_spec (.inl ha)).1 hlo _

theorem skipMark_head {s : Str} (h : Head s) : skipMark s = s := by
  obtain ⟨a, b, c, u, rfl, ha, -, -⟩ := h
  have hstar : a ≠ '*' := upper_ne ha (by decide)
  have hdot : a ≠ '.' := upper_ne ha (by decide)
  simp [skipMark, hstar, hdot]

theorem dropSeq_head {s : Str} (h : Head s) : dropSeq tb s = s := by
  rw [dropSeq, digits_head tb h (by decide)]
  rfl

theorem yearTime_head {s : Str} (h : Head s) : yearTime tb s = none := by
  rw [yearTime, digits_head tb h (by decide)]
  rfl

theorem isoTime_head {s : Str} (h : Head s) : isoTime tb s = none := by
  rw [isoTime, isoDate, digits_head tb h (by decide)]
  rfl

theorem ciscoHost_head {s : Str} (h : Head s) : ciscoHost tb s = none := by
  obtain ⟨a, b, c, u, rfl, ha, hb, hc⟩ := h
  have hword {d : Char} (hd : d.isUpper = true ∨ d.isLower = true) : (tb.word d || d = '.' || d = '-') = true := by
    simp [tb.word_ascii d (letter_lt hd), (letter_spec hd).2]
  have hblank : (tb.word ' ' || ' ' = '.' || ' ' = '-') = false := by
    rw [tb.word_ascii ' ' (by decide)]
    decide
  have hrun := @run_append (fun c => tb.word c || c = '.' || c = '-') 1 255 [a, b, c] ' '
    (by
      intro d hd
      simp only [List.mem_cons, List.not_mem_nil, or_false] at hd
      rcases hd with rfl | rfl | rfl
      · exact hword (.inl ha)
      · exact hword (.inr hb)
      · exact hword (.inr hc))
    hblank (Nat.le_add_left 1 2) (by simp) u
  rw [ciscoHost]
  simp only [List.cons_append, List.nil_append] at hrun
  rw [hrun]
  rfl

theorem priority_head {s : Str} (h : Head s) : SyslogParser.priority tb s = none := by
  obtain ⟨a, b, c, u, rfl, ha, -, -⟩ := h
  have hne : a ≠ '<' := upper_ne ha (by decide)
  simp [SyslogParser.priority, expect, hne]

theorem rfc5424_head {s : Str} (h : Head s) : _rfc5424 tb s = .ok none := by
  obtain ⟨a, b, c, u, rfl, ha, hb, hc⟩ := h
  have hdigit : tb.isdigit a = false := by
    rw [tb.isdigit_ascii a (letter_lt (.inl ha))]
    exact (letter_spec (.inl ha)).1
  have hane : a ≠ ' ' := upper_ne ha (by decide)
  have hsplit : splitBlank 6 (a :: b :: c :: ' ' :: u) =
      (a :: (b :: c :: ' ' :: u).takeWhile (· ≠ ' ')) :: splitBlank 5 ((a :: b :: c :: ' ' :: u).dropWhile (· ≠ ' ')).tail := by
    rw [splitBlank, if_pos (by simp), List.takeWhile_cons_of_pos (by simpa using hane)]
  rw [_rfc5424, hsplit]
  split
  · rename_i version ts host app x y tail heq
    rw [if_neg]
    rintro ⟨⟨-, hall, -⟩, -⟩
    obtain rfl := (List.cons.inj heq).1
    simp [hdigit] at hall
  · rfl

theorem fortios_head {s : Str} (h : Head s) : _fortios tb s = .ok none := by
  obtain ⟨a, b, c, u, rfl, -, -, -⟩ := h
  rw [_fortios, if_neg]
  rintro ⟨hany, -⟩
  -- a blank stands where each of the prefixes has a letter or "="
  simp [startsWith, lit, List.isPrefixOf] at hany

/-- The time that a form tells -/
def toldTime (form : Except PyError Form) : Option Datetime := form.toOption.bind (·.1)

@[simp] theorem toldTime_tagged (t : Option Datetime) (host : Option Str) (rest : Str) :
    toldTime (.ok (tagged tb t host rest)) = t := by
  change (tagged tb t host rest).1 = t
  rw [tagged]
  split <;> rfl

theorem forms_head {s : Str} (h : Head s) (header : Bool) (now : Datetime) : forms tb header s now = _bsd_form tb s now := by
  rw [forms, rfc5424_head tb h, fortios_head tb h]
  cases header <;> rfl

theorem timestamp_none {s : Str} (h : stamped tb s = false) (now : Datetime) : _timestamp tb s now = .ok (none, s) := by
  simp only [stamped, Bool.or_eq_false_iff, Option.isSome_eq_false_iff, Option.isNone_iff_eq_none] at h
  rw [_timestamp, h.1.1, h.1.2, h.2]

theorem ownHeader_alone {rest : Str} (h : stamped tb (dropSeq tb rest) = false) (t : Option Datetime) (now : Datetime) :
    ∃ rest', ownHeader tb t rest now = .ok (t, rest') := by
  rw [ownHeader, timestamp_none tb h]
  by_cases hcase : dropSeq tb rest ≠ rest ∧ (dropSeq tb rest).head? = some '%'
  · exact ⟨dropSeq tb rest, if_pos hcase⟩
  · exact ⟨rest, if_neg hcase⟩

theorem bsd_form_head {s : Str} (h : Head s) (now : Datetime) : _bsd_form tb s now = do
    let (time, rest) ← _timestamp tb s now
    let (host, rest) := if time.isSome then splitHost tb rest else (none, rest)
    let (time, rest) ← if time.isSome then ownHeader tb time rest now else pure (time, rest)
    return tagged tb time host rest := by
  have hcolon : startsWith (lit ": ") s = false := by
    obtain ⟨a, b, c, u, rfl, ha, -, -⟩ := h
    simp [startsWith, lit, List.isPrefixOf, (upper_ne (d := ':') ha (by decide)).symm]
  rw [_bsd_form, if_neg (by simp [hcolon]), dropSeq_head tb h, ciscoHost_head tb h]
  simp

/-- The time of a header that nothing follows is what `_bsd` makes of it. -/
theorem told_clock {s after : Str} {m : Clock} (h : Head s) (hclock : clock tb s = some (m, after))
    (hafter : stamped tb (dropSeq tb (splitHost tb after).2) = false) (now : Datetime) :
    toldTime (_bsd_form tb s now) = (_bsd m now).toOption.join := by
  have htime : _timestamp tb s now = (_bsd m now).map (·, after) := by
    rw [_timestamp, bsdTime, skipMark_head h, hclock]
  rw [bsd_form_head tb h, htime]
  match _bsd m now with
  | .error e => rfl
  | .ok none => exact toldTime_tagged tb none none after
  | .ok (some d) =>
    obtain ⟨rest', hown⟩ := ownHeader_alone tb hafter (some d) now
    simp only [Except.map, bind, Except.bind, Option.isSome_some, if_true, hown]
    exact toldTime_tagged tb (some d) _ rest'

theorem told_nothing {s : Str} (h : Head s) (hclock : clock tb s = none) (now : Datetime) :
    toldTime (_bsd_form tb s now) = none := by
  have hnone : stamped tb s = false := by
    rw [stamped, bsdTime, skipMark_head h, hclock, yearTime_head tb h, isoTime_head tb h]
    rfl
  rw [bsd_form_head tb h, timestamp_none tb hnone]
  exact toldTime_tagged tb none none s

/-! ## The text of a message -/

theorem skipZone_blank (b : Str) : ∃ after, skipZone (' ' :: b) = some after := by
  rw [skipZone]
  split
  · rename_i rest _
    exact ⟨rest, rfl⟩
  · exact ⟨b, by simp [closing, expect]⟩

theorem clock_body (t : Datetime) (b : Str) :
    clock tb (rendered t ++ ' ' :: b) = some (clockOf t, (skipZone (' ' :: b)).getD []) := by
  obtain ⟨after, hafter⟩ := skipZone_blank b
  have hfraction : skipFraction tb 6 (' ' :: b) = some (' ' :: b) := by simp [skipFraction, expect]
  rw [clock_rendered, hfraction, Option.bind_some, hafter]
  rfl

/-- A header at the end of a message is none: the blank after it is missing. -/
theorem clock_bare (t : Datetime) : clock tb (rendered t) = none := by
  have h := clock_rendered tb t []
  rw [List.append_nil] at h
  rw [h]
  rfl

theorem cut_rendered (t : Datetime) (s : Str) : cut (s ++ rendered t) = s ++ rendered t := by
  have hlt : t.1.time / 1000000 % 60 < 100 := by omega
  obtain ⟨hdigits, hlength, -⟩ := pad_two _ hlt
  obtain ⟨init, d, hpad⟩ : ∃ init d, pad 2 (t.1.time / 1000000 % 60) = init ++ [d] := ⟨_, _, rfl⟩
  have hd := hdigits d (by rw [hpad]; simp)
  have hleft : trailing d = false := by
    have hne {e : Char} (he : e.isDigit = false) : d ≠ e := by
      rintro rfl
      simp [hd.2] at he
    have hzero : d.toNat ≠ 0 := by
      intro hz
      have h0 : d = Char.ofNat 0 := by rw [← hz, Char.ofNat_toNat]
      rw [h0] at hd
      exact absurd hd.2 (by decide)
    simp [trailing, hne (e := '\r') (by decide), hne (e := '\n') (by decide), hne (e := ' ') (by decide), hzero]
  have hend : s ++ rendered t = (s ++ (monthText t ++ ' ' :: (dayText t.1.date.day.toNat ++ ' ' ::
      (pad 2 (t.1.time / 3600000000) ++ ':' :: (pad 2 (t.1.time / 60000000 % 60) ++ ':' :: init))))) ++ [d] := by
    simp [rendered, hpad]
  rw [hend, cut_concat hleft]

variable {tb}

theorem priority_text {s : Str} (h : Head s) (priority : Option (Fin 192)) :
    SyslogParser.priority tb (priorityText priority ++ s) = priority.map (fun n => (n.val, s)) := by
  match priority with
  | none => exact priority_head tb h
  | some n =>
    obtain ⟨hdigits, hlo, hhi, hvalue⟩ := priority_digits n n.isLt
    have hnumber := @digits_append tb 1 3 _ '>' hdigits (by decide) (by decide) hlo hhi s
    simp only [priorityText, Option.elim_some, List.cons_append, List.append_assoc, List.nil_append, SyslogParser.priority,
      expect_cons, hnumber, hvalue, Option.bind_eq_bind, Option.bind_some, Option.map_some, Option.pure_def]

theorem toldTime_getD (form : Except PyError Form) (rest : Str) :
    (form.toOption.getD (none, none, none, rest)).1 = toldTime form := by
  cases form <;> rfl

/-- The time of a message with a header is what the BSD form tells. -/
theorem device_time_of_cut {raw s : Str} (priority : Option (Fin 192)) (hcut : cut raw = priorityText priority ++ s)
    (h : Head s) (now : Datetime) : (parse tb raw now).device_time = toldTime (_bsd_form tb s now) := by
  rw [SyslogParser.parse, hcut, priority_text h]
  match priority with
  | none =>
    dsimp only [Option.map_none, priorityText, Option.elim_none, List.nil_append, Option.isSome_none]
    rw [toldTime_getD, forms_head tb h]
  | some n =>
    dsimp only [Option.map_some, Option.isSome_some]
    rw [if_pos (Nat.le_of_lt_succ n.isLt)]
    dsimp only
    rw [toldTime_getD, forms_head tb h]

theorem device_time_of_speaks (m : Message tb) (now : Datetime) (h : Speaks m.body) :
    (parse tb m.text now).device_time = (_bsd (clockOf m.sent) now).toOption.join := by
  have hcut : cut m.text = priorityText m.priority ++ (rendered m.sent ++ ' ' :: cut m.body) := by
    have := cut_append_of_speaks h (priorityText m.priority ++ (rendered m.sent ++ [' ']))
    simpa [Message.text] using this
  rw [device_time_of_cut m.priority hcut (head_rendered _ _)]
  exact told_clock tb (head_rendered _ _) (clock_body tb m.sent _) m.alone now

theorem device_time_of_not_speaks (m : Message tb) (now : Datetime) (h : ¬ Speaks m.body) :
    (parse tb m.text now).device_time = none := by
  have hblank : ¬ Speaks (' ' :: m.body) := by
    rintro ⟨c, hc, hleft⟩
    rcases List.mem_cons.mp hc with rfl | hc
    · exact absurd hleft (by decide)
    · exact h ⟨c, hc, hleft⟩
  have hcut : cut m.text = priorityText m.priority ++ rendered m.sent := by
    rw [Message.text, ← List.append_assoc, cut_append_of_not_speaks hblank, cut_rendered]
  have hhead : Head (rendered m.sent) := by
    have := head_rendered m.sent []
    rwa [List.append_nil] at this
  rw [device_time_of_cut m.priority hcut hhead]
  exact told_nothing tb hhead (clock_bare tb m.sent) now

end

/-! ## Years -/

theorem datetime_self (t : Datetime) :
    datetime t.1.date.year.toNat t.1.date.month.toNat t.1.date.day.toNat t.1.time = some t := by
  rw [datetime, stamp_self, Option.bind_some, dif_pos t.2]

theorem datetime_eq_some {year month day time : Nat} {t : Datetime} (h : datetime year month day time = some t) :
    t.1.date.year = year ∧ t.1.date.month = month ∧ t.1.date.day = day ∧ t.1.time = time := by
  simp only [datetime, Option.bind_eq_some_iff, stamp] at h
  obtain ⟨s, hs, h⟩ := h
  split at hs
  · cases hs
    split at h
    · cases h
      exact ⟨rfl, rfl, rfl, rfl⟩
    · cases h
  · cases hs

theorem monthLength_february (y : Int) : Gregorian.monthLength y 2 = 28 + Gregorian.leapDay y := by
  simp [Gregorian.monthLength, Gregorian.beforeMonth]
  omega

theorem monthLength_of_ne (y z : Int) {m : Int} (hpos : 1 ≤ m) (hle : m ≤ 12) (h : m ≠ 2) :
    Gregorian.monthLength y m = Gregorian.monthLength z m := by
  have hcases : m = 1 ∨ 3 ≤ m := by omega
  simp only [Gregorian.monthLength, Gregorian.beforeMonth]
  split <;> split <;> omega

/-- A date in another year; 29 February needs a leap year. -/
theorem datetime_of_year {t : Datetime} {year : Nat} (hyear : 1 ≤ year) (hle : year ≤ 9999)
    (hleap : t.1.date.month = 2 → t.1.date.day ≤ 28) : ∃ d : Datetime,
    datetime year t.1.date.month.toNat t.1.date.day.toNat t.1.time = some d ∧
      d.1.date.year = year ∧ d.1.date.month = t.1.date.month ∧ d.1.date.day = t.1.date.day ∧ d.1.time = t.1.time := by
  have hpos := t.1.date.month_pos
  have hmle := t.1.date.month_le
  have hdpos := t.1.date.day_pos
  have hmonth : ((t.1.date.month.toNat : Nat) : Int) = t.1.date.month := Int.toNat_of_nonneg (by omega)
  have hday : ((t.1.date.day.toNat : Nat) : Int) = t.1.date.day := Int.toNat_of_nonneg (by omega)
  have hvalid : t.1.date.day ≤ Gregorian.monthLength year t.1.date.month := by
    have hdle := t.1.date.day_le
    by_cases hfeb : t.1.date.month = 2
    · rw [hfeb, monthLength_february]
      have := Gregorian.leapDay_cases year
      have := hleap hfeb
      omega
    · rwa [← monthLength_of_ne t.1.date.year year hpos hmle hfeb]
  have hstamp : ∃ s : Stamp, stamp year t.1.date.month.toNat t.1.date.day.toNat t.1.time = some s ∧ 1 ≤ s.date.year := by
    rw [stamp, dif_pos ⟨hle, by omega, by omega, by omega, by rw [hmonth, hday]; exact hvalid, t.1.time_lt⟩]
    exact ⟨_, rfl, by dsimp only; omega⟩
  obtain ⟨s, hs, hone⟩ := hstamp
  have hd : datetime year t.1.date.month.toNat t.1.date.day.toNat t.1.time = some ⟨s, hone⟩ := by
    rw [datetime, hs, Option.bind_some, dif_pos hone]
  obtain ⟨h1, h2, h3, h4⟩ := datetime_eq_some hd
  exact ⟨⟨s, hone⟩, hd, h1, h2.trans hmonth, h3.trans hday, h4⟩

/-- The clock of a time in any year is its date in that year. -/
theorem inYear_clockOf {t : Datetime} (hwhole : t.1.time % 1000000 = 0) (year : Nat) :
    (clockOf t).inYear year = datetime year t.1.date.month.toNat t.1.date.day.toNat t.1.time := by
  obtain ⟨a, b, c, hmonth, -, -, -, hof⟩ := monthText_shape t
  have hlt := t.1.time_lt
  have htime : t.1.time / 3600000000 * 3600000000 + t.1.time / 60000000 % 60 * 60000000 +
      t.1.time / 1000000 % 60 * 1000000 = t.1.time := by omega
  simp only [Clock.inYear, clockOf, hmonth, hof, Option.bind_eq_bind, Option.bind_some]
  rw [if_pos ⟨by omega, by omega, by omega⟩, htime]

/-- The year that `_bsd` guesses is the one of the device. -/
def Right (sent now : Datetime) : Prop :=
  sent.1.date.year = now.1.date.year ∨
    (sent.1.date.year + 1 = now.1.date.year ∧ ¬ (sent.1.date.month = 2 ∧ sent.1.date.day = 29))

/-- The same date lies at least 365 days later in the next year. -/
theorem next_year_late {t d : Datetime} (hyear : d.1.date.year = t.1.date.year + 1) (hmonth : d.1.date.month = t.1.date.month)
    (hday : d.1.date.day = t.1.date.day) (htime : d.1.time = t.1.time) : t.1.instant + 365 * day ≤ d.1.instant := by
  have hord : t.1.date.ordinal + 365 ≤ d.1.date.ordinal := by
    have hsucc := Gregorian.beforeYear_succ t.1.date.year
    have hleap := Gregorian.leapDay_cases t.1.date.year
    have hnext := Gregorian.leapDay_cases (t.1.date.year + 1)
    rw [Gregorian.Date.ordinal, Gregorian.Date.ordinal, hyear, hmonth, hday, hsucc, Gregorian.yearLength]
    unfold Gregorian.beforeMonth
    split_ifs <;> omega
  rw [Stamp.instant, Stamp.instant, htime]
  unfold midnight day hour minute
  omega

theorem leap_of_day_29 {t : Datetime} (hmonth : t.1.date.month = 2) (hday : t.1.date.day = 29) :
    Gregorian.leapDay t.1.date.year = 1 := by
  have hlength := t.1.date.day_le
  have hcases := Gregorian.leapDay_cases t.1.date.year
  rw [hmonth, monthLength_february] at hlength
  omega

theorem not_leap_twice (y : Int) (h : Gregorian.leapDay y = 1) : Gregorian.leapDay (y + 1) ≠ 1 := by
  have hmod : ∀ {z : Int}, Gregorian.leapDay z = 1 → z % 4 = 0 := by
    intro z hz
    by_contra hne
    simp [Gregorian.leapDay, Gregorian.isLeap, hne] at hz
  intro hnext
  have := hmod h
  have := hmod hnext
  omega

section
variable {sent now : Datetime}

theorem bsd_this_year (hwhole : sent.1.time % 1000000 = 0) (hahead : sent.1.instant ≤ now.1.instant + day)
    (hyear : sent.1.date.year = now.1.date.year) : _bsd (clockOf sent) now = .ok (some sent) := by
  rw [_bsd, inYear_clockOf hwhole, ← hyear, datetime_self]
  exact if_neg (by omega)

theorem bsd_last_year (hwhole : sent.1.time % 1000000 = 0) (hpast : now.1.instant - 364 * day < sent.1.instant)
    (hyear : sent.1.date.year + 1 = now.1.date.year) (hleap : ¬ (sent.1.date.month = 2 ∧ sent.1.date.day = 29)) :
    _bsd (clockOf sent) now = .ok (some sent) := by
  have hfeb : sent.1.date.month = 2 → sent.1.date.day ≤ 28 := by
    intro hmonth
    have hday : sent.1.date.day ≠ 29 := fun h => hleap ⟨hmonth, h⟩
    have hlength := sent.1.date.day_le
    have hcases := Gregorian.leapDay_cases sent.1.date.year
    rw [hmonth, monthLength_february] at hlength
    omega
  have hone := sent.2
  have hnow := now.1.year_le
  obtain ⟨d, hd, hdyear, hdmonth, hdday, hdtime⟩ :=
    @datetime_of_year sent now.1.date.year.toNat (by omega) (by omega) hfeb
  have hlate := next_year_late (t := sent) (d := d) (by omega) hdmonth hdday hdtime
  have hback : replaceYear d (now.1.date.year - 1) = some sent := by
    have hprev : now.1.date.year - 1 = sent.1.date.year := by omega
    rw [replaceYear, hprev, hdmonth, hdday, hdtime, datetime_self]
  rw [_bsd, inYear_clockOf hwhole, hd]
  dsimp only
  rw [if_pos (by unfold day hour minute at *; omega), hback]

/-- Whatever `_bsd` guesses, the year is this one or the last, and the day also exists in this one. -/
theorem right_of_bsd (hwhole : sent.1.time % 1000000 = 0) (h : (_bsd (clockOf sent) now).toOption.join = some sent) :
    Right sent now := by
  have hpos := now.2
  rw [_bsd, inYear_clockOf hwhole] at h
  split at h
  · cases h
  · rename_i d hd
    obtain ⟨hdyear, hdmonth, hdday, -⟩ := datetime_eq_some hd
    split at h
    · split at h
      · rename_i e he
        obtain rfl : e = sent := by simpa [Except.toOption] using h
        obtain ⟨heyear, -⟩ := datetime_eq_some he
        refine .inr ⟨by omega, ?_⟩
        -- both this year and the last one would have a 29 February
        rintro ⟨hmonth, hday⟩
        have hlast := leap_of_day_29 hmonth hday
        have hthis := leap_of_day_29 (t := d) (by omega) (by omega)
        exact not_leap_twice e.1.date.year hlast (by rwa [show e.1.date.year + 1 = d.1.date.year by omega])
      · cases h
    · obtain rfl : d = sent := by simpa [Except.toOption] using h
      exact .inl (by omega)

theorem right_iff (hwhole : sent.1.time % 1000000 = 0) (hpast : now.1.instant - 364 * day < sent.1.instant)
    (hahead : sent.1.instant ≤ now.1.instant + day) :
    (_bsd (clockOf sent) now).toOption.join = some sent ↔ Right sent now := by
  refine ⟨right_of_bsd hwhole, ?_⟩
  rintro (hyear | ⟨hyear, hleap⟩)
  · rw [bsd_this_year hwhole hahead hyear]
    rfl
  · rw [bsd_last_year hwhole hpast hyear hleap]
    rfl

end

/-- Within the window a message tells the time that the device sent exactly when something follows its header, and
the time lies in the year of the server or, but for 29 February, in the year before. -/
theorem device_time_iff (tb : Tables) (m : Message tb) (now : Datetime) (hpast : now.1.instant - 364 * day < m.sent.1.instant)
    (hahead : m.sent.1.instant ≤ now.1.instant + day) :
    (SyslogParser.parse tb m.text now).device_time = some m.sent ↔ Speaks m.body ∧ Right m.sent now := by
  by_cases hspeaks : Speaks m.body
  · rw [device_time_of_speaks m now hspeaks, right_iff m.whole hpast hahead]
    exact (and_iff_right hspeaks).symm
  · rw [device_time_of_not_speaks m now hspeaks]
    simp [hspeaks]

/-! ## At New Year -/

/-- The tables restricted to ASCII, and the times that `isoformat` writes. -/
def asciiTables : Tables where
  digit := digitValue
  isdigit := Char.isDigit
  word c := c.isAlphanum || c = '_'
  fromisoformat s := (IsoTime.parse s).bind (fun t => if h : 1 ≤ t.date.year then some (⟨t, h⟩, some 0) else none)
  digit_ascii _ _ := rfl
  isdigit_ascii _ _ := rfl
  word_ascii _ _ := rfl

instance (sent now : Datetime) : Decidable (Right sent now) :=
  inferInstanceAs (Decidable (_ = _ ∨ (_ ∧ ¬ (_ ∧ _))))

instance (body : Str) : Decidable (Speaks body) :=
  decidable_of_iff (body.any (fun c => !trailing c) = true) (by simp [Speaks])

/-- The last half minute of 2025, on the clock of the server -/
def eve : Datetime := (datetime 2025 12 31 86370000000).get (by with_unfolding_all decide)

def bodyText : Str := lit "sw1 %SYS-5-CONFIG_I: Configured from console by admin"

/-- What a switch sends that takes the same moment for ten seconds past midnight. -/
def newYear : Message asciiTables where
  priority := some 189
  sent := (datetime 2026 1 1 10000000).get (by with_unfolding_all decide)
  whole := by with_unfolding_all decide
  body := bodyText
  alone := by with_unfolding_all decide

def oldYear : Message asciiTables where
  priority := some 189
  sent := (datetime 2025 12 31 86360000000).get (by with_unfolding_all decide)
  whole := by with_unfolding_all decide
  body := bodyText
  alone := by with_unfolding_all decide

theorem old_year_right : (SyslogParser.parse asciiTables oldYear.text eve).device_time = some oldYear.sent :=
  (device_time_iff asciiTables oldYear eve (by with_unfolding_all decide) (by with_unfolding_all decide)).mpr
    (by with_unfolding_all decide)

theorem new_year_wrong : ¬ ∀ (tb : Tables) (m : Message tb) (now : Datetime), now.1.instant - 364 * day < m.sent.1.instant →
    m.sent.1.instant ≤ now.1.instant + day → (SyslogParser.parse tb m.text now).device_time = some m.sent := by
  intro h
  have hnew := h asciiTables newYear eve (by with_unfolding_all decide) (by with_unfolding_all decide)
  rw [device_time_of_speaks newYear eve (by with_unfolding_all decide)] at hnew
  exact absurd (right_of_bsd newYear.whole hnew) (by with_unfolding_all decide)

example : newYear.text = lit "<189>Jan  1 00:00:10 sw1 %SYS-5-CONFIG_I: Configured from console by admin" := by
  with_unfolding_all decide

end YearGuess
