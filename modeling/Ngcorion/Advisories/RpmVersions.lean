import Ngcorion.Advisories.DebVersions

/-!
# RPM version order

`rpmvercmp` walks over both texts at once and compares segment by segment. It is
the lexicographic order of the tokens of the two texts, and `rpm_compare` the
order of epoch, version and release.
-/
namespace RpmVersions

open Text PaddedOrder ParamSecurity DebVersions

/-! ## The code -/

def _alnum (c : Char) : Bool := c.isAlphanum

/-- A character that only separates segments. -/
def separates (c : Char) : Bool := !_alnum c && c ≠ '~' && c ≠ '^'

def skip (s : Str) : Str := s.dropWhile separates

/-- The result when no more segments are compared. -/
def ended (a b : Str) : Int := if a = [] ∧ b = [] then 0 else if a = [] then -1 else 1

/-- Two segments of the kind of the first one: a result, unless they are equal. -/
def compareSegments (isnum : Bool) (sa sb : Str) : Int :=
  if sb = [] then if isnum then 1 else -1
  else
    let ta := if isnum then sa.dropWhile (· = '0') else sa
    let tb := if isnum then sb.dropWhile (· = '0') else sb
    if isnum ∧ ta.length ≠ tb.length then if tb.length < ta.length then 1 else -1
    else if ta ≠ tb then if compare ta tb = .gt then 1 else -1
    else 0

theorem skip_length (s : Str) : (skip s).length ≤ s.length := (List.dropWhile_suffix _).length_le

theorem tail_skip_lt {a : Str} (h : (skip a).head?.isSome = true) : (skip a).tail.length < a.length := by
  have hle := skip_length a
  cases hs : skip a with
  | nil => simp [hs] at h
  | cons x s =>
    rw [hs] at hle
    exact hle

/-- What begins a segment is a letter, a digit, a tilde or a caret. -/
theorem head_skip (s : Str) : ∀ c ∈ (skip s).head?, separates c = false := by
  induction s with
  | nil => simp [skip]
  | cons c s ih =>
    cases hc : separates c with
    | true => simpa [skip, hc] using ih
    | false => simp [skip, hc]

/-- The characters of the segment that begins at a character. -/
def segmentChar (isnum : Bool) : Char → Bool := if isnum then Char.isDigit else Char.isAlpha

theorem head_segment {s : Str} (hne : skip s ≠ []) (ht : (skip s).head? ≠ some '~') (hc : (skip s).head? ≠ some '^') :
    ∃ c rest, skip s = c :: rest ∧ segmentChar ((skip s).head?.any Char.isDigit) c = true := by
  obtain ⟨c, rest, hs⟩ := List.exists_cons_of_ne_nil hne
  refine ⟨c, rest, hs, ?_⟩
  have hsep := head_skip s c (by simp [hs])
  have ht' : c ≠ '~' := fun h => ht (by simp [hs, h])
  have hc' : c ≠ '^' := fun h => hc (by simp [hs, h])
  have halnum : c.isAlphanum = true := by simpa [separates, _alnum, ht', hc'] using hsep
  rw [hs]
  cases hd : c.isDigit with
  | true => simp [segmentChar, hd]
  | false => simpa [segmentChar, hd, Char.isAlphanum] using halnum

theorem segment_lt {s : Str} (hne : skip s ≠ []) (ht : (skip s).head? ≠ some '~') (hc : (skip s).head? ≠ some '^') :
    ((skip s).dropWhile (segmentChar ((skip s).head?.any Char.isDigit))).length < s.length := by
  obtain ⟨c, rest, hs, hseg⟩ := head_segment hne ht hc
  have hle := skip_length s
  rw [hs] at hle hseg ⊢
  rw [List.dropWhile_cons_of_pos hseg]
  have hsuf : rest.dropWhile (segmentChar ((c :: rest).head?.any Char.isDigit)) <:+ rest := List.dropWhile_suffix _
  have hdrop := hsuf.length_le
  simp only [List.length_cons] at hle
  omega

def rpmLoop (a b : Str) : Int :=
  if a = [] ∧ b = [] then 0
  else if (skip a).head? = some '~' ∨ (skip b).head? = some '~' then
    if (skip a).head? ≠ some '~' then 1
    else if (skip b).head? ≠ some '~' then -1
    else rpmLoop (skip a).tail (skip b).tail
  else if (skip a).head? = some '^' ∨ (skip b).head? = some '^' then
    if skip a = [] then -1
    else if skip b = [] then 1
    else if (skip a).head? ≠ some '^' then 1
    else if (skip b).head? ≠ some '^' then -1
    else rpmLoop (skip a).tail (skip b).tail
  else if skip a = [] ∨ skip b = [] then ended (skip a) (skip b)
  else
    let isnum := (skip a).head?.any Char.isDigit
    let r := compareSegments isnum ((skip a).takeWhile (segmentChar isnum)) ((skip b).takeWhile (segmentChar isnum))
    if r ≠ 0 then r else rpmLoop ((skip a).dropWhile (segmentChar isnum)) ((skip b).dropWhile (segmentChar isnum))
termination_by a.length + b.length
decreasing_by
  · have ha := tail_skip_lt (a := a) (by simp_all)
    have hb := tail_skip_lt (a := b) (by simp_all)
    omega
  · have ha := tail_skip_lt (a := a) (by simp_all)
    have hb := tail_skip_lt (a := b) (by simp_all)
    omega
  · have ha := segment_lt (s := a) (by simp_all) (by simp_all) (by simp_all)
    have hb : ((skip b).dropWhile (segmentChar isnum)).length ≤ b.length :=
      (List.dropWhile_suffix _).length_le.trans (skip_length b)
    simp only [isnum] at hb ⊢
    omega

def rpmvercmp (a b : Str) : Int := if a = b then 0 else rpmLoop a b

section
variable (dg : UnicodeDigits)

/-- The epoch's group of `_EVR`: the digits before a first colon. -/
def evrEpoch (v : Str) : Str :=
  let ds := v.takeWhile (fun c => (dg.value c).isSome)
  if (v.drop ds.length).head? = some ':' then ds else []

def afterEpoch (v : Str) : Str := if evrEpoch dg v = [] then v else v.drop ((evrEpoch dg v).length + 1)

/-- The groups of `_EVR` for a stripped text: epoch, version and release. -/
def evr (v : Str) : Str × Str × Str :=
  (evrEpoch dg v, if '-' ∈ afterEpoch dg v then rsplit '-' (afterEpoch dg v) else (afterEpoch dg v, []))

/-- `_EVR` does not match when the version would have a line end. -/
def _rpm_split (v : Str) : Except PyError (Int × Str × Str) :=
  let (epoch, version, release) := evr dg (strip v)
  if '\n' ∈ version then .error .attributeError
  else if epoch = [] then .ok (0, version, release)
  else match int dg.toDigits epoch with
    | some n => .ok (n, version, release)
    | none => .error .valueError

def rpm_compare (a b : Str) : Except PyError Int := do
  let (ea, va, ra) ← _rpm_split dg a
  let (eb, vb, rb) ← _rpm_split dg b
  if ea ≠ eb then return if ea < eb then -1 else 1
  else if rpmvercmp va vb ≠ 0 then return rpmvercmp va vb
  else if ra = [] ∨ rb = [] then return 0
  else return rpmvercmp ra rb

end

/-! ## The order of tokens -/

inductive Token where
  | tilde | caret
  | letters (s : Str)
  | number (n : Nat)

/-- The first token of a text, and what follows it. -/
def next (s : Str) : Option (Token × Str) :=
  match skip s with
  | [] => none
  | c :: rest =>
    if c = '~' then some (.tilde, rest)
    else if c = '^' then some (.caret, rest)
    else if c.isDigit then some (.number (value ((c :: rest).takeWhile Char.isDigit)), (c :: rest).dropWhile Char.isDigit)
    else some (.letters ((c :: rest).takeWhile Char.isAlpha), (c :: rest).dropWhile Char.isAlpha)

theorem next_segment {s : Str} (hne : skip s ≠ []) (ht : (skip s).head? ≠ some '~') (hc : (skip s).head? ≠ some '^') :
    next s = some
      (if (skip s).head?.any Char.isDigit then .number (value ((skip s).takeWhile Char.isDigit))
        else .letters ((skip s).takeWhile Char.isAlpha),
      (skip s).dropWhile (segmentChar ((skip s).head?.any Char.isDigit))) := by
  obtain ⟨c, rest, hs, -⟩ := head_segment hne ht hc
  rw [hs] at ht hc ⊢
  have ht' : c ≠ '~' := fun h => ht (by simp [h])
  have hc' : c ≠ '^' := fun h => hc (by simp [h])
  rw [next, hs]
  cases hd : c.isDigit <;> simp [ht', hc', hd, segmentChar]

theorem next_end {s : Str} (h : skip s = []) : next s = none := by simp [next, h]

theorem next_tilde {s : Str} (h : (skip s).head? = some '~') : next s = some (.tilde, (skip s).tail) := by
  obtain ⟨rest, hs⟩ := List.head?_eq_some_iff.mp h
  simp [next, hs]

theorem next_caret {s : Str} (h : (skip s).head? = some '^') : next s = some (.caret, (skip s).tail) := by
  obtain ⟨rest, hs⟩ := List.head?_eq_some_iff.mp h
  simp [next, hs]

theorem next_lt {s rest : Str} {t : Token} (h : next s = some (t, rest)) : rest.length < s.length := by
  by_cases hne : skip s = []
  · simp [next_end hne] at h
  · by_cases ht : (skip s).head? = some '~'
    · rw [next_tilde ht] at h
      cases h
      exact tail_skip_lt (by simp [ht])
    · by_cases hc : (skip s).head? = some '^'
      · rw [next_caret hc] at h
        cases h
        exact tail_skip_lt (by simp [hc])
      · rw [next_segment hne ht hc] at h
        cases h
        exact segment_lt hne ht hc

def tokens (s : Str) : List Token :=
  match _h : next s with
  | none => []
  | some (t, rest) => t :: tokens rest
termination_by s.length
decreasing_by exact next_lt _h

/-- The end of a text comes after a tilde and before everything else. -/
def rank : Option Token → Nat
  | some .tilde => 0
  | none => 1
  | some .caret => 2
  | some (.letters _) => 3
  | some (.number _) => 4

@[simp] theorem rank_none : rank none = 1 := rfl
@[simp] theorem rank_caret : rank (some .caret) = 2 := rfl
@[simp] theorem rank_letters (s : Str) : rank (some (.letters s)) = 3 := rfl
@[simp] theorem rank_number (n : Nat) : rank (some (.number n)) = 4 := rfl

def lettersOf : Option Token → Str
  | some (.letters s) => s
  | _ => []

def numberOf : Option Token → Nat
  | some (.number n) => n
  | _ => 0

def compareToken : Option Token → Option Token → Ordering :=
  compareLex (compareOn rank) (compareLex (compareOn lettersOf) (compareOn numberOf))

def compareTokens : Str → Str → Ordering := onto (fun s => (tokens s).map some) (padLex compareToken none)

/-- Epoch, version and release, in this order. -/
def compareEvr : Int × Str × Str → Int × Str × Str → Ordering :=
  compareLex (compareOn Prod.fst)
    (compareLex (onto (fun v => v.2.1) compareTokens) (onto (fun v => v.2.2) compareTokens))

instance : Std.TransCmp compareToken := by unfold compareToken; infer_instance

instance : Std.TransCmp compareTokens := by unfold compareTokens; infer_instance

instance : Std.TransCmp compareEvr := by unfold compareEvr; infer_instance

/-! ## The two orders agree -/

def first (s : Str) : Option Token := (next s).map Prod.fst

def after (s : Str) : Str := ((next s).map Prod.snd).getD []

theorem tokens_step (a b : Str) :
    compareTokens a b = (compareToken (first a) (first b)).then (compareTokens (after a) (after b)) := by
  have hnil : tokens [] = [] := by
    rw [tokens]
    rfl
  have hhead : ∀ s : Str, ((tokens s).map some).headD none = first s ∧
      ((tokens s).map some).tail = (tokens (after s)).map some := by
    intro s
    rw [tokens]
    split
    · next h => simp [first, after, h, hnil]
    · next t rest h => simp [first, after, h]
  rw [compareTokens, onto, padLex_step, (hhead a).1, (hhead b).1, (hhead a).2, (hhead b).2]
  rfl

theorem compareSegments_number {sa sb : Str} (ha : ∀ c ∈ sa, c.isDigit = true) (hb : ∀ c ∈ sb, c.isDigit = true)
    (hne : sb ≠ []) : compareSegments true sa sb = sign (compare (value sa) (value sb)) := by
  have hkeep : ∀ s : Str, (∀ c ∈ s, c.isDigit = true) → ∀ c ∈ s.dropWhile (· = '0'), c.isDigit = true :=
    fun s hs c hc => hs c ((List.dropWhile_suffix _).subset hc)
  have hlead : ∀ s : Str, (s.dropWhile (· = '0')).head? ≠ some '0' := by
    intro s
    induction s with
    | nil => simp
    | cons c s ih => by_cases hc : c = '0' <;> simp [hc, ih]
  rw [← value_dropZeros sa, ← value_dropZeros sb]
  simp only [compareSegments, hne, if_false, if_true, true_and]
  rcases Nat.lt_trichotomy (sa.dropWhile (· = '0')).length (sb.dropWhile (· = '0')).length with h | h | h
  · rw [Nat.compare_eq_lt.mpr (value_lt_of_length (hkeep sa ha) (hkeep sb hb) (hlead sb) h)]
    rw [if_pos (Nat.ne_of_lt h), if_neg (Nat.not_lt_of_lt h)]
    rfl
  · rw [compare_value (hkeep sa ha) (hkeep sb hb) h, if_neg (not_not.mpr h)]
    have heq : compare (sa.dropWhile (· = '0')) (sb.dropWhile (· = '0')) = .eq ↔
        sa.dropWhile (· = '0') = sb.dropWhile (· = '0') := Std.LawfulEqCmp.compare_eq_iff_eq
    cases hc : compare (sa.dropWhile (· = '0')) (sb.dropWhile (· = '0')) <;> simp_all [sign]
  · rw [Nat.compare_eq_gt.mpr (value_lt_of_length (hkeep sb hb) (hkeep sa ha) (hlead sa) h)]
    rw [if_pos (Nat.ne_of_gt h), if_pos h]
    rfl

theorem compareSegments_letters {sa sb : Str} (hne : sb ≠ []) : compareSegments false sa sb = sign (compare sa sb) := by
  have heq : compare sa sb = .eq ↔ sa = sb := Std.LawfulEqCmp.compare_eq_iff_eq
  cases hc : compare sa sb <;> simp_all [compareSegments, sign]

theorem compareToken_lt {x y : Option Token} (h : rank x < rank y) : compareToken x y = .lt := by
  simp [compareToken, compareLex, compareOn, Nat.compare_eq_lt.mpr h]

theorem compareToken_gt {x y : Option Token} (h : rank y < rank x) : compareToken x y = .gt := by
  simp [compareToken, compareLex, compareOn, Nat.compare_eq_gt.mpr h]

theorem compareTokens_lt {a b : Str} (h : rank (first a) < rank (first b)) : compareTokens a b = .lt := by
  rw [tokens_step, compareToken_lt h]
  rfl

theorem compareTokens_gt {a b : Str} (h : rank (first b) < rank (first a)) : compareTokens a b = .gt := by
  rw [tokens_step, compareToken_gt h]
  rfl

theorem first_tilde {s : Str} (h : (skip s).head? = some '~') : first s = some .tilde ∧ after s = (skip s).tail := by
  simp [first, after, next_tilde h]

theorem first_caret {s : Str} (h : (skip s).head? = some '^') : first s = some .caret ∧ after s = (skip s).tail := by
  simp [first, after, next_caret h]

theorem first_end {s : Str} (h : skip s = []) : first s = none ∧ after s = [] := by
  simp [first, after, next_end h]

theorem rank_segment {s : Str} (hne : skip s ≠ []) (ht : (skip s).head? ≠ some '~') (hc : (skip s).head? ≠ some '^') :
    3 ≤ rank (first s) := by
  rw [first, next_segment hne ht hc]
  cases (skip s).head?.any Char.isDigit <;> simp

/-- What is not a tilde comes after it. -/
theorem rank_pos {s : Str} (ht : (skip s).head? ≠ some '~') : 0 < rank (first s) := by
  by_cases hne : skip s = []
  · simp [(first_end hne).1]
  · by_cases hc : (skip s).head? = some '^'
    · simp [(first_caret hc).1]
    · have hseg := rank_segment hne ht hc
      omega

theorem takeWhile_ne_nil {p : Char → Bool} {c : Char} {s rest : Str} (hs : s = c :: rest) (hc : p c = true) :
    s.takeWhile p ≠ [] := by
  simp [hs, hc]

theorem not_isAlpha_of_isDigit {c : Char} (h : c.isDigit = true) : c.isAlpha = false := by
  have hc := Char.isDigit_iff_toNat.mp h
  have hval : c.toNat = c.val.toNat := rfl
  have h9 : '9'.toNat = 57 := rfl
  simp only [isAlpha_eq, isUpper_eq, isLower_eq, Bool.or_eq_false_iff, Bool.and_eq_false_iff,
    decide_eq_false_iff_not, UInt32.le_iff_toNat_le]
  have hA : (65 : UInt32).toNat = 65 := rfl
  have ha : (97 : UInt32).toNat = 97 := rfl
  omega

theorem compareToken_letters (s t : Str) : compareToken (some (.letters s)) (some (.letters t)) = compare s t := by
  simp [compareToken, compareLex, compareOn, lettersOf, numberOf]

theorem compareToken_letters_number (s : Str) (n : Nat) :
    compareToken (some (.letters s)) (some (.number n)) = .lt := compareToken_lt (by simp)

theorem compareToken_number_letters (n : Nat) (s : Str) :
    compareToken (some (.number n)) (some (.letters s)) = .gt := compareToken_gt (by simp)

theorem compareToken_number (m n : Nat) : compareToken (some (.number m)) (some (.number n)) = compare m n := by
  simp [compareToken, compareLex, compareOn, lettersOf, numberOf]

/-- Two segments compare as their tokens do; equal ones are of one kind. -/
theorem segment_step {a b : Str} (ha : skip a ≠ []) (hb : skip b ≠ []) (hat : (skip a).head? ≠ some '~')
    (hbt : (skip b).head? ≠ some '~') (hac : (skip a).head? ≠ some '^') (hbc : (skip b).head? ≠ some '^')
    (isnum : Bool) (hnum : isnum = (skip a).head?.any Char.isDigit) :
    compareSegments isnum ((skip a).takeWhile (segmentChar isnum)) ((skip b).takeWhile (segmentChar isnum)) =
      sign (compareToken (first a) (first b)) ∧
    (compareToken (first a) (first b) = .eq →
      after a = (skip a).dropWhile (segmentChar isnum) ∧ after b = (skip b).dropWhile (segmentChar isnum)) := by
  obtain ⟨x, restA, hsa, hx⟩ := head_segment ha hat hac
  obtain ⟨y, restB, hsb, hy⟩ := head_segment hb hbt hbc
  simp only [first, after, next_segment ha hat hac, next_segment hb hbt hbc, Option.map_some, Option.getD_some]
  have hxd : (skip a).head?.any Char.isDigit = x.isDigit := by simp [hsa]
  have hyd : (skip b).head?.any Char.isDigit = y.isDigit := by simp [hsb]
  rw [hxd] at hnum hx ⊢
  rw [hyd] at hy ⊢
  cases hdx : x.isDigit <;> cases hdy : y.isDigit <;> rw [hdx] at hnum hx <;> rw [hdy] at hy <;> subst hnum
  · rw [compareSegments_letters (takeWhile_ne_nil hsb hy)]
    simp [compareToken_letters, segmentChar]
  · have hnil : (skip b).takeWhile (segmentChar false) = [] := by
      simp [hsb, segmentChar, not_isAlpha_of_isDigit hdy]
    simp [hnil, compareSegments, compareToken_letters_number, sign]
  · have hnil : (skip b).takeWhile (segmentChar true) = [] := by
      simp [hsb, segmentChar, hdy]
    simp [hnil, compareSegments, compareToken_number_letters, sign]
  · have hdigits : ∀ s : Str, ∀ c ∈ s.takeWhile (segmentChar true), c.isDigit = true :=
      fun s c hc => List.mem_takeWhile_imp hc
    rw [compareSegments_number (hdigits _) (hdigits _) (takeWhile_ne_nil hsb hy)]
    simp [compareToken_number, segmentChar]

theorem rpmLoop_eq (a b : Str) : rpmLoop a b = sign (compareTokens a b) := by
  fun_induction rpmLoop a b with
  | case1 a b h =>
    obtain ⟨rfl, rfl⟩ := h
    rw [show compareTokens [] [] = .eq from Std.ReflCmp.compare_self]
    rfl
  | case2 a b h htilde hna =>
    have hb := htilde.resolve_left hna
    rw [compareTokens_gt (by rw [(first_tilde hb).1]; exact rank_pos hna)]
    rfl
  | case3 a b h htilde hna hnb =>
    have ha := not_ne_iff.mp hna
    rw [compareTokens_lt (by rw [(first_tilde ha).1]; exact rank_pos hnb)]
    rfl
  | case4 a b h htilde hna hnb ih =>
    have ha := first_tilde (not_ne_iff.mp hna)
    have hb := first_tilde (not_ne_iff.mp hnb)
    rw [tokens_step, ha.1, hb.1, ha.2, hb.2, ih, show compareToken (some .tilde) (some .tilde) = .eq from
      Std.ReflCmp.compare_self, Ordering.eq_then]
  | case5 a b h htilde hcaret hna =>
    have hb := hcaret.resolve_left (by simp [hna])
    rw [compareTokens_lt (by rw [(first_caret hb).1, (first_end hna).1]; decide)]
    rfl
  | case6 a b h htilde hcaret hna hnb =>
    have ha := hcaret.resolve_right (by simp [hnb])
    rw [compareTokens_gt (by rw [(first_caret ha).1, (first_end hnb).1]; decide)]
    rfl
  | case7 a b h htilde hcaret hna hnb hnac =>
    have hb := hcaret.resolve_left hnac
    have ha := rank_segment hna (not_or.mp htilde).1 hnac
    rw [compareTokens_gt (by rw [(first_caret hb).1]; exact ha)]
    rfl
  | case8 a b h htilde hcaret hna hnb hnac hnbc =>
    have ha := not_ne_iff.mp hnac
    have hb := rank_segment hnb (not_or.mp htilde).2 hnbc
    rw [compareTokens_lt (by rw [(first_caret ha).1]; exact hb)]
    rfl
  | case9 a b h htilde hcaret hna hnb hnac hnbc ih =>
    have ha := first_caret (not_ne_iff.mp hnac)
    have hb := first_caret (not_ne_iff.mp hnbc)
    rw [tokens_step, ha.1, hb.1, ha.2, hb.2, ih, show compareToken (some .caret) (some .caret) = .eq from
      Std.ReflCmp.compare_self, Ordering.eq_then]
  | case10 a b h htilde hcaret hend =>
    by_cases hna : skip a = []
    · by_cases hnb : skip b = []
      · rw [tokens_step, (first_end hna).1, (first_end hnb).1, (first_end hna).2, (first_end hnb).2,
          show compareToken none none = .eq from Std.ReflCmp.compare_self, Ordering.eq_then,
          show compareTokens [] [] = .eq from Std.ReflCmp.compare_self]
        simp [ended, hna, hnb, sign]
      · have hb := rank_segment hnb (not_or.mp htilde).2 (not_or.mp hcaret).2
        rw [compareTokens_lt (by rw [(first_end hna).1]; exact Nat.lt_of_lt_of_le (by decide) hb)]
        simp [ended, hna, hnb, sign]
    · have hnb := hend.resolve_left hna
      have ha := rank_segment hna (not_or.mp htilde).1 (not_or.mp hcaret).1
      rw [compareTokens_gt (by rw [(first_end hnb).1]; exact Nat.lt_of_lt_of_le (by decide) ha)]
      simp [ended, hna, hnb, sign]
  | case11 a b h htilde hcaret hend isnum r hr =>
    obtain ⟨hna, hnb⟩ := not_or.mp hend
    obtain ⟨hat, hbt⟩ := not_or.mp htilde
    obtain ⟨hac, hbc⟩ := not_or.mp hcaret
    have hstep : r = sign (compareToken (first a) (first b)) := (segment_step hna hnb hat hbt hac hbc isnum rfl).1
    rw [tokens_step, hstep]
    rw [hstep] at hr
    cases hc : compareToken (first a) (first b) with
    | lt => rfl
    | eq => simp [hc, sign] at hr
    | gt => rfl
  | case12 a b h htilde hcaret hend isnum r hr ih =>
    obtain ⟨hna, hnb⟩ := not_or.mp hend
    obtain ⟨hat, hbt⟩ := not_or.mp htilde
    obtain ⟨hac, hbc⟩ := not_or.mp hcaret
    obtain ⟨hstep, hafter⟩ := segment_step hna hnb hat hbt hac hbc isnum rfl
    have heq := (sign_eq_zero _).mp (hstep.symm.trans (not_ne_iff.mp hr))
    obtain ⟨haa, hab⟩ := hafter heq
    rw [tokens_step, heq, Ordering.eq_then, haa, hab, ih]

/-- `rpmvercmp` is the lexicographic order of the tokens. -/
theorem rpmvercmp_eq (a b : Str) : rpmvercmp a b = sign (compareTokens a b) := by
  by_cases h : a = b
  · rw [rpmvercmp, if_pos h, h, show compareTokens b b = .eq from Std.ReflCmp.compare_self]
    rfl
  · rw [rpmvercmp, if_neg h, rpmLoop_eq]

/-! ## Epoch, version and release -/

section
variable (dg : UnicodeDigits)

theorem digitsFrom_values {e : Str} (h : ∀ c ∈ e, (dg.value c).isSome = true) :
    ∃ ds, digitsFrom dg.toDigits e = some ds ∧ ds.length = e.length := by
  induction e with
  | nil => exact ⟨[], rfl, rfl⟩
  | cons c e ih =>
    obtain ⟨d, hd⟩ := Option.isSome_iff_exists.mp (h c (by simp))
    obtain ⟨ds, hds, hlen⟩ := ih (fun x hx => h x (by simp [hx]))
    have hne : c ≠ '_' := by
      rintro rfl
      rw [dg.value_ascii '_' (by decide), show asciiDigits.value '_' = none by decide] at hd
      simp at hd
    refine ⟨d :: ds, ?_, by simp [hlen]⟩
    rw [digitsFrom]
    · simp [hd, hds]
    · intro _ _ hc' _
      exact hne hc'

/-- `int` reads decimal digits, but not more than 4300 of them. -/
theorem int_values {e : Str} (hne : e ≠ []) (h : ∀ c ∈ e, (dg.value c).isSome = true) :
    (int dg.toDigits e).isSome = decide (e.length ≤ 4300) := by
  have hascii : ∀ x : Char, x.toNat < 128 → (asciiDigits.value x).isSome = false → x ∉ e := by
    intro x hx hv hmem
    have hsome := h x hmem
    rw [dg.value_ascii x hx] at hsome
    simp [hv] at hsome
  obtain ⟨ds, hds, hlen⟩ := digitsFrom_values dg h
  have hhead : e.head? ≠ some '_' := fun hh => hascii '_' (by decide) (by decide) (List.mem_of_mem_head? hh)
  have hnat : (natural dg.toDigits e).isSome = decide (e.length ≤ 4300) := by
    rw [natural, if_neg (by simp [hne, hhead]), hds, ← hlen]
    by_cases hle : ds.length ≤ 4300 <;> simp [hle]
  unfold int
  split
  · exact absurd (List.mem_cons_self) (hascii '-' (by decide) (by decide))
  · exact absurd (List.mem_cons_self) (hascii '+' (by decide) (by decide))
  · rw [← hnat]
    cases natural dg.toDigits e <;> rfl

/-- A text of one line with a release, whose epoch `int` can read. -/
structure EvrFits (v : Str) : Prop where
  line : '\n' ∉ v
  epoch : (evr dg (strip v)).1.length ≤ 4300
  release : (evr dg (strip v)).2.2 ≠ []

theorem evr_epoch_digits (v : Str) : ∀ c ∈ (evr dg v).1, (dg.value c).isSome = true := by
  intro c hc
  simp only [evr, evrEpoch] at hc
  split at hc
  · simpa using List.mem_takeWhile_imp (p := fun c => (dg.value c).isSome) hc
  · simp at hc

theorem mem_of_mem_version {v : Str} {c : Char} (h : c ∈ (evr dg v).2.1) : c ∈ v := by
  have hrest : afterEpoch dg v <:+ v := by
    unfold afterEpoch
    split
    · exact List.suffix_rfl
    · exact List.drop_suffix _ _
  simp only [evr] at h
  split at h
  · exact hrest.subset
      (List.mem_reverse.mp ((List.dropWhile_suffix _).subset (List.mem_of_mem_tail (List.mem_reverse.mp h))))
  · exact hrest.subset h

theorem rpm_split_ok {v : Str} (h : EvrFits dg v) : ∃ n, _rpm_split dg v = .ok (n, (evr dg (strip v)).2) := by
  have hline : '\n' ∉ (evr dg (strip v)).2.1 := fun hn => h.line (mem_of_mem_strip (mem_of_mem_version dg hn))
  by_cases he : (evr dg (strip v)).1 = []
  · exact ⟨0, by simp [_rpm_split, hline, he]⟩
  · have hint := int_values dg he (evr_epoch_digits dg _)
    rw [decide_eq_true h.epoch] at hint
    obtain ⟨n, hn⟩ := Option.isSome_iff_exists.mp hint
    exact ⟨n, by simp [_rpm_split, hline, he, hn]⟩

theorem rpm_compare_eq {a b : Str} {va vb : Int × Str × Str} (ha : _rpm_split dg a = .ok va)
    (hb : _rpm_split dg b = .ok vb) (hra : va.2.2 ≠ []) (hrb : vb.2.2 ≠ []) :
    rpm_compare dg a b = .ok (sign (compareEvr va vb)) := by
  obtain ⟨ea, ua, ra⟩ := va
  obtain ⟨eb, ub, rb⟩ := vb
  simp only at hra hrb
  simp only [rpm_compare, ha, hb, bind, Except.bind, pure, Except.pure, compareEvr, compareLex, compareOn, onto,
    rpmvercmp_eq, hra, hrb, or_self, if_false]
  rcases Int.lt_trichotomy ea eb with h | h | h
  · simp [Int.ne_of_lt h, h, Int.compare_eq_lt.mpr h, sign]
  · subst h
    rw [Int.compare_eq_eq.mpr rfl, Ordering.eq_then]
    cases hc : compareTokens ua ub <;> simp [sign]
  · simp [Int.ne_of_gt h, Int.le_of_lt h, Int.compare_eq_gt.mpr h, sign]

/-- `rpmvercmp` is the order of tokens and so a total preorder; so is `rpm_compare`
on texts with a release whose epoch `int` can read. -/
theorem rpm_compare_is_preorder :
    (∀ a b, rpmvercmp a b = sign (compareTokens a b) ∧ rpmvercmp b a = -rpmvercmp a b) ∧
    (∀ a b c, rpmvercmp a b ≤ 0 → rpmvercmp b c ≤ 0 → rpmvercmp a c ≤ 0) ∧
    (∀ a b, EvrFits dg a → EvrFits dg b → ∃ x, rpm_compare dg a b = .ok x ∧ rpm_compare dg b a = .ok (-x)) ∧
    (∀ a b c, EvrFits dg a → EvrFits dg b → EvrFits dg c → ∀ x y, rpm_compare dg a b = .ok x →
      rpm_compare dg b c = .ok y → x ≤ 0 → y ≤ 0 → ∃ z, rpm_compare dg a c = .ok z ∧ z ≤ 0) := by
  have hok : ∀ a b, EvrFits dg a → EvrFits dg b → ∃ va vb, _rpm_split dg a = .ok va ∧ _rpm_split dg b = .ok vb ∧
      rpm_compare dg a b = .ok (sign (compareEvr va vb)) := by
    intro a b ha hb
    obtain ⟨na, hna⟩ := rpm_split_ok dg ha
    obtain ⟨nb, hnb⟩ := rpm_split_ok dg hb
    exact ⟨_, _, hna, hnb, rpm_compare_eq dg hna hnb ha.release hb.release⟩
  refine ⟨fun a b => ⟨rpmvercmp_eq a b, ?_⟩, ?_, ?_, ?_⟩
  · rw [rpmvercmp_eq, rpmvercmp_eq, @Std.OrientedCmp.eq_swap _ compareTokens _ b a, sign_swap]
  · intro a b c hab hbc
    rw [rpmvercmp_eq, sign_nonpos] at *
    exact Std.TransCmp.isLE_trans hab hbc
  · intro a b ha hb
    obtain ⟨va, vb, hva, hvb, hab⟩ := hok a b ha hb
    obtain ⟨vb', va', hvb', hva', hba⟩ := hok b a hb ha
    rw [hva] at hva'
    rw [hvb] at hvb'
    cases hva'
    cases hvb'
    exact ⟨_, hab, by rw [hba, @Std.OrientedCmp.eq_swap _ compareEvr _ vb va, sign_swap]⟩
  · intro a b c ha hb hc x y hx hy hx0 hy0
    obtain ⟨na, hna⟩ := rpm_split_ok dg ha
    obtain ⟨nb, hnb⟩ := rpm_split_ok dg hb
    obtain ⟨nc, hnc⟩ := rpm_split_ok dg hc
    rw [rpm_compare_eq dg hna hnb ha.release hb.release] at hx
    rw [rpm_compare_eq dg hnb hnc hb.release hc.release] at hy
    cases hx
    cases hy
    refine ⟨_, rpm_compare_eq dg hna hnc ha.release hc.release, (sign_nonpos _).mpr ?_⟩
    exact Std.TransCmp.isLE_trans ((sign_nonpos _).mp hx0) ((sign_nonpos _).mp hy0)

end

/-- A rebuild is newer, whichever way it is asked. -/
theorem rebuild_order : ∃ x,
    rpm_compare asciiOnly (lit "1:8.0p1-6.el8_2") (lit "1:8.0p1-19.el8_9") = .ok x ∧
    rpm_compare asciiOnly (lit "1:8.0p1-19.el8_9") (lit "1:8.0p1-6.el8_2") = .ok (-x) :=
  (rpm_compare_is_preorder asciiOnly).2.2.1 _ _ ⟨by with_unfolding_all decide, by with_unfolding_all decide,
    by with_unfolding_all decide⟩
    ⟨by with_unfolding_all decide, by with_unfolding_all decide, by with_unfolding_all decide⟩

theorem evr_long {e : Str} (h : ∀ c ∈ e, c.isDigit = true) (hne : e ≠ []) (dg : UnicodeDigits) :
    evr dg (strip (e ++ [':', '1', '-', '1'])) = (e, ['1'], ['1']) := by
  have hstrip : strip (e ++ [':', '1', '-', '1']) = e ++ [':', '1', '-', '1'] := by
    have happend : strip (strip e ++ [':', '1', '-', '1']) = strip e ++ [':', '1', '-', '1'] :=
      strip_append (by simp) (by simp [isSpace]) (by simp [isSpace])
    rwa [strip_digits h] at happend
  have hdigits : (e ++ [':', '1', '-', '1']).takeWhile (fun c => (dg.value c).isSome) = e := by
    rw [List.takeWhile_append_of_pos]
    · simp [dg.value_ascii ':' (by decide), show asciiDigits.value ':' = none by decide]
    · intro c hc
      rw [dg.value_ascii c (isDigit_ascii (h c hc))]
      simp [asciiDigits, h c hc]
  have hepoch : evrEpoch dg (e ++ [':', '1', '-', '1']) = e := by simp [evrEpoch, hdigits]
  have hafter : afterEpoch dg (e ++ [':', '1', '-', '1']) = ['1', '-', '1'] := by
    rw [afterEpoch, hepoch, if_neg hne, List.drop_append]
    simp
  rw [hstrip, evr, hepoch, hafter]
  simp [rsplit]

/-- An epoch with more digits than `int` reads is not compared. -/
theorem rpm_compare_long_epoch (dg : UnicodeDigits) {e : Str} (h : ∀ c ∈ e, c.isDigit = true) (hlen : 4300 < e.length)
    (b : Str) : rpm_compare dg (e ++ [':', '1', '-', '1']) b = .error .valueError := by
  have hne : e ≠ [] := List.ne_nil_of_length_pos (by omega)
  have hint : int dg.toDigits e = none := by rw [int_digits_iff dg hne h, if_neg (by omega)]
  have hsplit : _rpm_split dg (e ++ [':', '1', '-', '1']) = .error .valueError := by
    simp [_rpm_split, evr_long h hne dg, hne, hint]
  rw [rpm_compare, hsplit]
  rfl

/-- An epoch of 4301 digits, in a text with a release. -/
theorem long_rpm_epoch_raises : (evr asciiOnly (strip (List.replicate 4301 '1' ++ [':', '1', '-', '1']))).2.2 = ['1'] ∧
    '\n' ∉ List.replicate 4301 '1' ++ [':', '1', '-', '1'] ∧
    rpm_compare asciiOnly (List.replicate 4301 '1' ++ [':', '1', '-', '1']) ['1', '-', '1'] = .error .valueError := by
  have hdigits : ∀ c ∈ List.replicate 4301 '1', c.isDigit = true := by
    intro c hc
    rw [List.eq_of_mem_replicate hc]
    decide
  have hlen : 4300 < (List.replicate 4301 '1').length := by
    rw [List.length_replicate]
    decide
  refine ⟨?_, ?_, rpm_compare_long_epoch asciiOnly hdigits hlen _⟩
  · rw [evr_long hdigits (List.ne_nil_of_length_pos (by omega))]
  · intro hn
    rcases List.mem_append.mp hn with hn | hn
    · exact absurd (List.eq_of_mem_replicate hn) (by decide)
    · exact absurd hn (by decide)

end RpmVersions
