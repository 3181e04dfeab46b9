import Ngcorion.Advisories.DebVersions

/-!
# Debian version order on all texts

Outside ASCII `deb_compare` goes on by the same walk: a text is cut at the characters that `isdigit` accepts, and numbers
without their leading zeros are compared by length and then by their characters. This is a total preorder of all the texts
whose epoch `int` can read.
-/
namespace DebOrder

open Text PaddedOrder DebVersions

section

variable (dg : UnicodeDigits)

/-! ## The order -/

/-- The orders of the characters up to the first digit -/
def orders (s : Str) : List Int := (s.takeWhile (!dg.isdigit ·)).map (_deb_order dg)

def fromDigits (s : Str) : Str := s.dropWhile (!dg.isdigit ·)

/-- A number without its leading zeros -/
def number (s : Str) : Str := (s.takeWhile dg.isdigit).dropWhile (· = '0')

def pastDigits (s : Str) : Str := s.dropWhile dg.isdigit

theorem pastDigits_lt {s : Str} (h : s ≠ []) : (pastDigits dg (fromDigits dg s)).length < s.length := by
  cases s with
  | nil => exact absurd rfl h
  | cons c s =>
    have hsub : (pastDigits dg (fromDigits dg (c :: s))).length ≤ s.length := by
      cases hc : dg.isdigit c with
      | true =>
        have hsuf : s.dropWhile dg.isdigit <:+ s := List.dropWhile_suffix _
        simpa [pastDigits, fromDigits, hc] using hsuf.length_le
      | false =>
        have hsuf : (s.dropWhile (!dg.isdigit ·)).dropWhile dg.isdigit <:+ s :=
          (List.dropWhile_suffix _).trans (List.dropWhile_suffix _)
        simpa [pastDigits, fromDigits, hc] using hsuf.length_le
    exact Nat.lt_succ_of_le hsub

def pieces (s : Str) : List (List Int × Str) :=
  if s = [] then [] else (orders dg s, number dg (fromDigits dg s)) :: pieces (pastDigits dg (fromDigits dg s))
termination_by s.length
decreasing_by exact pastDigits_lt dg (by assumption)

def compareNumber : Str → Str → Ordering := compareLex (compareOn List.length) compare

def comparePiece : List Int × Str → List Int × Str → Ordering :=
  compareLex (onto Prod.fst (padLex compare 0)) (onto Prod.snd compareNumber)

def compareTexts : Str → Str → Ordering := onto (pieces dg) (padLex comparePiece ([], []))

/-- Epoch, upstream version and revision -/
def compareSplit : Int × Str × Str → Int × Str × Str → Ordering :=
  compareLex (compareOn Prod.fst)
    (compareLex (onto (fun v => v.2.1) (compareTexts dg)) (onto (fun v => v.2.2) (compareTexts dg)))

instance : Std.TransCmp compareNumber := by unfold compareNumber; infer_instance

instance : Std.TransCmp comparePiece := by unfold comparePiece; infer_instance

instance : Std.TransCmp (compareTexts dg) := by unfold compareTexts; infer_instance

instance : Std.TransCmp (compareSplit dg) := by unfold compareSplit; infer_instance

/-! ## Characters that are no digits -/

theorem nextOrder_head (s : Str) : nextOrder dg s = (orders dg s).headD 0 := by
  cases s with
  | nil => rfl
  | cons c s => cases hc : dg.isdigit c <;> simp [nextOrder, orders, hc, _deb_order]

theorem orders_tail {s : Str} (h : atNonDigit dg s = true) :
    orders dg s.tail = (orders dg s).tail ∧ fromDigits dg s.tail = fromDigits dg s := by
  cases s with
  | nil => cases h
  | cons c s =>
    have hc : dg.isdigit c = false := by simpa [atNonDigit] using h
    simp [orders, fromDigits, hc]

theorem orders_of_digit {s : Str} (h : atNonDigit dg s = false) : orders dg s = [] ∧ fromDigits dg s = s := by
  cases s with
  | nil => exact ⟨rfl, rfl⟩
  | cons c s =>
    have hc : dg.isdigit c = true := by simpa [atNonDigit] using h
    simp [orders, fromDigits, hc]

/-- Only a digit and the end have the order 0. -/
theorem nextOrder_ne_zero {s : Str} (h : atNonDigit dg s = true) : nextOrder dg s ≠ 0 := by
  cases s with
  | nil => cases h
  | cons c s =>
    have hc : dg.isdigit c = false := by simpa [atNonDigit] using h
    simp only [nextOrder, _deb_order, hc, Bool.false_eq_true, if_false]
    split
    · next ha =>
      intro hz
      have hnul : c = Char.ofNat 0 := Char.toNat_inj.mp (Int.ofNat_eq_zero.mp hz)
      rw [hnul] at ha
      exact absurd ha (by decide)
    · split
      · decide
      · omega

theorem nextOrder_of_digit {s : Str} (h : atNonDigit dg s = false) : nextOrder dg s = 0 := by
  rw [nextOrder_head, (orders_of_digit dg h).1]
  rfl

theorem nonDigitLoop_order (a b : Str) :
    match nonDigitLoop dg a b with
    | .error r => r = sign (padLex compare 0 (orders dg a) (orders dg b)) ∧
        padLex compare 0 (orders dg a) (orders dg b) ≠ .eq
    | .ok (a', b') => padLex compare 0 (orders dg a) (orders dg b) = .eq ∧ a' = fromDigits dg a ∧ b' = fromDigits dg b := by
  fun_induction nonDigitLoop dg a b with
  | case1 a b hn ho =>
    rw [padLex_step, ← nextOrder_head, ← nextOrder_head]
    rcases Int.lt_or_gt_of_ne ho with hlt | hgt
    · simp [hlt, Int.compare_eq_lt.mpr hlt, sign]
    · simp [Int.compare_eq_gt.mpr hgt, Int.le_of_lt hgt, sign]
  | case2 a b hn ho ih =>
    have heq := not_ne_iff.mp ho
    have hboth : atNonDigit dg a = true ∧ atNonDigit dg b = true := by
      have hza := nextOrder_of_digit dg (s := a)
      have hzb := nextOrder_of_digit dg (s := b)
      have hna := nextOrder_ne_zero dg (s := a)
      have hnb := nextOrder_ne_zero dg (s := b)
      cases ha : atNonDigit dg a <;> cases hb : atNonDigit dg b <;> simp_all
    obtain ⟨hta, haa⟩ := orders_tail dg hboth.1
    obtain ⟨htb, hab⟩ := orders_tail dg hboth.2
    rw [padLex_step, ← nextOrder_head, ← nextOrder_head, Int.compare_eq_eq.mpr heq, Ordering.eq_then, ← hta, ← htb, ← haa,
      ← hab]
    exact ih
  | case3 a b hn =>
    simp only [Bool.or_eq_true, not_or, Bool.not_eq_true] at hn
    obtain ⟨ha, hfa⟩ := orders_of_digit dg hn.1
    obtain ⟨hb, hfb⟩ := orders_of_digit dg hn.2
    refine ⟨?_, hfa.symm, hfb.symm⟩
    rw [ha, hb, padLex]

/-! ## Digits -/

theorem atDigit_head (s : Str) : atDigit dg s = s.head?.any dg.isdigit := by cases s <;> rfl

/-- The loop over digits stops where the shorter number stops. -/
theorem digitLoop_order (first_diff : Int) (a b : Str) :
    digitLoop dg first_diff a b =
      let da := a.takeWhile dg.isdigit
      let db := b.takeWhile dg.isdigit
      let n := min da.length db.length
      (if first_diff = 0 then sign (compare (da.take n) (db.take n)) else first_diff, a.drop n, b.drop n) := by
  have hstop : ∀ n : Int, (if n = 0 then sign (compare ([] : Str) []) else n) = n := by
    intro n
    by_cases h : n = 0 <;> simp [h, sign]
  induction a generalizing b first_diff with
  | nil => simp only [digitLoop, List.takeWhile_nil, List.length_nil, Nat.zero_min, List.take_zero, List.drop_zero, hstop]
  | cons x a ih =>
    cases b with
    | nil => simp only [digitLoop, List.takeWhile_nil, List.length_nil, Nat.min_zero, List.take_zero, List.drop_zero, hstop]
    | cons y b =>
      by_cases hxy : dg.isdigit x = true ∧ dg.isdigit y = true
      · have hrest := ih (if first_diff = 0 then sign (compare x y) else first_diff) b
        simp only [digitLoop, hxy, and_self, if_true, List.takeWhile_cons_of_pos, List.length_cons, Nat.add_min_add_right,
          List.take_succ_cons, List.drop_succ_cons, List.compare_cons_cons]
        rw [hrest]
        by_cases hfd : first_diff = 0
        · cases hc : compare x y <;> simp [hfd, sign]
        · simp [hfd]
      · have hn : min ((x :: a).takeWhile dg.isdigit).length ((y :: b).takeWhile dg.isdigit).length = 0 := by
          cases hxd : dg.isdigit x <;> cases hyd : dg.isdigit y <;> simp_all
        simp only [digitLoop, hxy, if_false, hn, List.take_zero, List.drop_zero, hstop]

theorem isdigit_zero : dg.isdigit '0' = true := dg.isdigit_ascii '0' (by decide)

theorem takeWhile_dropZeros (s : Str) : (s.dropWhile (· = '0')).takeWhile dg.isdigit = number dg s := by
  unfold number
  induction s with
  | nil => rfl
  | cons c s ih =>
    by_cases hc : c = '0'
    · subst hc
      simpa [isdigit_zero] using ih
    · cases hd : dg.isdigit c <;> simp [hc, hd]

theorem dropWhile_dropZeros (s : Str) : (s.dropWhile (· = '0')).dropWhile dg.isdigit = pastDigits dg s := by
  unfold pastDigits
  induction s with
  | nil => rfl
  | cons c s ih =>
    by_cases hc : c = '0'
    · subst hc
      simpa [isdigit_zero] using ih
    · simp [hc]

theorem head_dropWhile (s : Str) : (s.dropWhile dg.isdigit).head?.any dg.isdigit = false := by
  induction s with
  | nil => rfl
  | cons c s ih => cases hd : dg.isdigit c <;> simp [hd, ih]

theorem head_drop_takeWhile (s : Str) (n : Nat) (h : n < (s.takeWhile dg.isdigit).length) :
    (s.drop n).head?.any dg.isdigit = true := by
  induction s generalizing n with
  | nil => simp at h
  | cons c s ih =>
    cases hd : dg.isdigit c with
    | false => simp [hd] at h
    | true =>
      cases n with
      | zero => simp [hd]
      | succ n => exact ih n (by simpa [hd] using h)

theorem drop_length_takeWhile (s : Str) : s.drop (s.takeWhile dg.isdigit).length = s.dropWhile dg.isdigit := by
  induction s with
  | nil => rfl
  | cons c s ih => cases hd : dg.isdigit c <;> simp [hd, ih]

/-- A round of the outer loop compares two numbers: it returns their order, or goes on after both. -/
theorem digitRound_order (a b : Str) (r : Int × Str × Str)
    (hr : r = digitLoop dg 0 (a.dropWhile (· = '0')) (b.dropWhile (· = '0'))) :
    (compareNumber (number dg a) (number dg b) = .gt ∧ atDigit dg r.2.1 = true) ∨
    (compareNumber (number dg a) (number dg b) = .lt ∧ atDigit dg r.2.1 = false ∧ atDigit dg r.2.2 = true) ∨
    (atDigit dg r.2.1 = false ∧ atDigit dg r.2.2 = false ∧
      r.1 = sign (compareNumber (number dg a) (number dg b)) ∧ r.2 = (pastDigits dg a, pastDigits dg b)) := by
  rw [digitLoop_order] at hr
  rw [atDigit_head, atDigit_head, ← takeWhile_dropZeros, ← takeWhile_dropZeros, ← dropWhile_dropZeros, ← dropWhile_dropZeros]
  generalize a.dropWhile (· = '0') = a at *
  generalize b.dropWhile (· = '0') = b at *
  have hend : ∀ s : Str, (s.drop (s.takeWhile dg.isdigit).length).head?.any dg.isdigit = false := by
    intro s
    rw [drop_length_takeWhile, head_dropWhile]
  subst hr
  simp only [compareNumber, compareLex, compareOn]
  rcases Nat.lt_trichotomy (a.takeWhile dg.isdigit).length (b.takeWhile dg.isdigit).length with h | h | h
  · refine .inr (.inl ⟨by rw [Nat.compare_eq_lt.mpr h]; rfl, ?_, ?_⟩)
    · simpa [Nat.min_eq_left (Nat.le_of_lt h)] using hend a
    · simpa [Nat.min_eq_left (Nat.le_of_lt h)] using head_drop_takeWhile dg b _ h
  · refine .inr (.inr ?_)
    have hn : min (a.takeWhile dg.isdigit).length (b.takeWhile dg.isdigit).length = (b.takeWhile dg.isdigit).length := by
      omega
    simp only [hn, if_true]
    rw [Nat.compare_eq_eq.mpr h, Ordering.eq_then, List.take_of_length_le (Nat.le_of_eq h),
      List.take_of_length_le (Nat.le_refl _)]
    refine ⟨?_, hend b, rfl, ?_⟩
    · rw [← h]
      exact hend a
    · rw [drop_length_takeWhile, ← h, drop_length_takeWhile]
  · refine .inl ⟨by rw [Nat.compare_eq_gt.mpr h]; rfl, ?_⟩
    simpa [Nat.min_eq_right (Nat.le_of_lt h)] using head_drop_takeWhile dg a _ h

/-! ## The walk and the order -/

theorem pieces_step (a b : Str) : compareTexts dg a b =
    (comparePiece (orders dg a, number dg (fromDigits dg a)) (orders dg b, number dg (fromDigits dg b))).then
      (compareTexts dg (pastDigits dg (fromDigits dg a)) (pastDigits dg (fromDigits dg b))) := by
  have hhead : ∀ s : Str, (pieces dg s).headD ([], []) = (orders dg s, number dg (fromDigits dg s)) ∧
      (pieces dg s).tail = pieces dg (pastDigits dg (fromDigits dg s)) := by
    intro s
    rw [pieces]
    by_cases hs : s = []
    · subst hs
      simp [orders, number, fromDigits, pastDigits, pieces]
    · simp [hs]
  rw [compareTexts, onto, padLex_step, (hhead a).1, (hhead b).1, (hhead a).2, (hhead b).2]
  rfl

/-- After equal characters, the numbers decide, and then the rest. -/
theorem compareTexts_of_ok {a b a' b' : Str} (h : nonDigitLoop dg a b = .ok (a', b')) :
    compareTexts dg a b =
      (compareNumber (number dg a') (number dg b')).then (compareTexts dg (pastDigits dg a') (pastDigits dg b')) := by
  have hspec := nonDigitLoop_order dg a b
  rw [h] at hspec
  obtain ⟨heq, rfl, rfl⟩ := hspec
  rw [pieces_step, comparePiece, compareLex, onto, heq, Ordering.eq_then]
  rfl

theorem verrevcmp_order (a b : Str) : _verrevcmp dg a b = sign (compareTexts dg a b) := by
  fun_induction _verrevcmp dg a b with
  | case1 a b h =>
    obtain ⟨rfl, rfl⟩ := h
    rw [show compareTexts dg [] [] = .eq from Std.ReflCmp.compare_self]
    rfl
  | case2 a b hne r h =>
    have hspec := nonDigitLoop_order dg a b
    rw [h] at hspec
    rw [pieces_step, comparePiece, compareLex, onto, hspec.1]
    cases hc : padLex compare 0 (orders dg a) (orders dg b) with
    | lt => rfl
    | eq => exact absurd hc hspec.2
    | gt => rfl
  | case3 a b hne a' b' h r hda =>
    rw [compareTexts_of_ok dg h]
    rcases digitRound_order dg a' b' r rfl with hr | hr | hr
    · rw [hr.1]
      rfl
    · exact absurd hda (by simp [hr.2.1])
    · exact absurd hda (by simp [hr.1])
  | case4 a b hne a' b' h r hda hdb =>
    rw [compareTexts_of_ok dg h]
    rcases digitRound_order dg a' b' r rfl with hr | hr | hr
    · exact absurd hr.2 hda
    · rw [hr.1]
      rfl
    · exact absurd hdb (by simp [hr.2.1])
  | case5 a b hne a' b' h r hda hdb hdiff =>
    rw [compareTexts_of_ok dg h]
    rcases digitRound_order dg a' b' r rfl with hr | hr | hr
    · exact absurd hr.2 hda
    · exact absurd hr.2.2 hdb
    · obtain ⟨-, -, hsign, -⟩ := hr
      rw [hsign] at hdiff ⊢
      cases hc : compareNumber (number dg a') (number dg b') with
      | lt => rfl
      | eq => simp [hc, sign] at hdiff
      | gt => rfl
  | case6 a b hne a' b' h r hda hdb hdiff ih =>
    rw [compareTexts_of_ok dg h]
    rcases digitRound_order dg a' b' r rfl with hr | hr | hr
    · exact absurd hr.2 hda
    · exact absurd hr.2.2 hdb
    · obtain ⟨-, -, hsign, hrest⟩ := hr
      have hzero := (sign_eq_zero _).mp (hsign ▸ not_ne_iff.mp hdiff)
      rw [ih, hzero, Ordering.eq_then, hrest]

/-- `deb_compare` compares what `_deb_split` reads. -/
theorem deb_compare_order (a b : Str) : deb_compare dg a b = (do
    let va ← _deb_split dg a
    let vb ← _deb_split dg b
    return sign (compareSplit dg va vb)) := by
  unfold deb_compare
  cases _deb_split dg a with
  | error e => rfl
  | ok va =>
    cases _deb_split dg b with
    | error e => rfl
    | ok vb =>
      obtain ⟨ea, ua, ra⟩ := va
      obtain ⟨eb, ub, rb⟩ := vb
      simp only [bind, Except.bind, pure, Except.pure, compareSplit, compareLex, compareOn, onto, verrevcmp_order]
      rcases Int.lt_trichotomy ea eb with h | h | h
      · simp [Int.ne_of_lt h, h, Int.compare_eq_lt.mpr h, sign]
      · subst h
        rw [Int.compare_eq_eq.mpr rfl, Ordering.eq_then]
        cases hc : compareTexts dg ua ub <;> simp [sign]
      · simp [Int.ne_of_gt h, Int.le_of_lt h, Int.compare_eq_gt.mpr h, sign]

end

end DebOrder
