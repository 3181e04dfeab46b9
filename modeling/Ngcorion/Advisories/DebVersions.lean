import Mathlib.Data.List.TakeWhile
import Ngcorion.Hardening.ParamSecurity
import Ngcorion.PaddedOrder

/-!
# Debian version order

`deb_compare` compares epoch, upstream version and revision. `_verrevcmp` walks
over both texts at once; dpkg's rule cuts each into non-digit and digit parts and
compares part by part. Both give the same order.
-/
namespace DebVersions

open Text PaddedOrder ParamSecurity

inductive PyError where
  | valueError | attributeError
  deriving DecidableEq

/-- The digits of Unicode, which are the decimal digits as far as ASCII goes. -/
structure UnicodeDigits extends Digits where
  value_ascii : ∀ c, c.toNat < 128 → toDigits.value c = asciiDigits.value c
  isdigit_ascii : ∀ c, c.toNat < 128 → toDigits.isdigit c = c.isDigit

def asciiOnly : UnicodeDigits where
  toDigits := asciiDigits
  value_ascii _ _ := rfl
  isdigit_ascii _ _ := rfl

/-- `s.rsplit(c, 1)`, for a character that the text has. -/
def rsplit (c : Char) (s : Str) : Str × Str :=
  ((s.reverse.dropWhile (· ≠ c)).tail.reverse, (s.reverse.takeWhile (· ≠ c)).reverse)

section
variable (dg : UnicodeDigits)

/-! ## The code -/

def _deb_split (v : Str) : Except PyError (Int × Str × Str) :=
  let v := strip v
  let e := v.takeWhile (· ≠ ':')
  let parts : Int → Str → Int × Str × Str := fun epoch v =>
    if '-' ∈ v then (epoch, rsplit '-' v) else (epoch, v, [])
  if ':' ∈ v ∧ e ≠ [] ∧ e.all dg.isdigit then
    match int dg.toDigits (strip e) with
    | some epoch => .ok (parts epoch (v.drop (e.length + 1)))
    | none => .error .valueError
  else .ok (parts 0 v)

def _deb_order (c : Char) : Int :=
  if dg.isdigit c then 0
  else if c.isAlpha then c.toNat
  else if c = '~' then -1
  else c.toNat + 256

/-- `_deb_order` of the next character, 0 at the end. -/
def nextOrder : Str → Int
  | [] => 0
  | c :: _ => _deb_order dg c

def atDigit : Str → Bool
  | [] => false
  | c :: _ => dg.isdigit c

def atNonDigit : Str → Bool
  | [] => false
  | c :: _ => !dg.isdigit c

theorem atNonDigit_ne_nil {s : Str} (h : atNonDigit dg s = true) : s ≠ [] := by
  rintro rfl
  simp [atNonDigit] at h

/-- The first inner loop: a result, or what is left of both texts. -/
def nonDigitLoop (a b : Str) : Except Int (Str × Str) :=
  if atNonDigit dg a || atNonDigit dg b then
    if nextOrder dg a ≠ nextOrder dg b then .error (if nextOrder dg a < nextOrder dg b then -1 else 1)
    else nonDigitLoop a.tail b.tail
  else .ok (a, b)
termination_by a.length + b.length
decreasing_by
  rename_i h _
  rw [Bool.or_eq_true] at h
  simp only [List.length_tail]
  rcases h with h | h
  · have := List.length_pos_of_ne_nil (atNonDigit_ne_nil dg h)
    omega
  · have := List.length_pos_of_ne_nil (atNonDigit_ne_nil dg h)
    omega

/-- The loop over the digits that both texts have. -/
def digitLoop (first_diff : Int) : Str → Str → Int × Str × Str
  | x :: a, y :: b =>
    if dg.isdigit x ∧ dg.isdigit y then
      digitLoop (if first_diff = 0 then sign (compare x y) else first_diff) a b
    else (first_diff, x :: a, y :: b)
  | a, b => (first_diff, a, b)

theorem nonDigitLoop_suffix {a b a' b' : Str} (h : nonDigitLoop dg a b = .ok (a', b')) :
    a' <:+ a ∧ b' <:+ b ∧ atNonDigit dg a' = false ∧ atNonDigit dg b' = false := by
  fun_induction nonDigitLoop dg a b with
  | case1 => simp at h
  | case2 a b _ _ ih =>
    obtain ⟨ha, hb, hrest⟩ := ih h
    exact ⟨ha.trans (List.tail_suffix a), hb.trans (List.tail_suffix b), hrest⟩
  | case3 a b hn =>
    cases h
    simp only [Bool.or_eq_true, not_or, Bool.not_eq_true] at hn
    exact ⟨List.suffix_rfl, List.suffix_rfl, hn.1, hn.2⟩

theorem digitLoop_suffix (first_diff : Int) (a b : Str) :
    (digitLoop dg first_diff a b).2.1 <:+ a ∧ (digitLoop dg first_diff a b).2.2 <:+ b := by
  fun_induction digitLoop dg first_diff a b with
  | case1 _ x a y b _ ih => exact ⟨ih.1.trans (List.suffix_cons x a), ih.2.trans (List.suffix_cons y b)⟩
  | case2 => exact ⟨List.suffix_rfl, List.suffix_rfl⟩
  | case3 => exact ⟨List.suffix_rfl, List.suffix_rfl⟩

/-- A round of the outer loop that does not return leaves less of the texts. -/
theorem round_lt {a b a' b' : Str} (hne : ¬ (a = [] ∧ b = [])) (h : nonDigitLoop dg a b = .ok (a', b'))
    (r : Int × Str × Str) (hr : r = digitLoop dg 0 (a'.dropWhile (· = '0')) (b'.dropWhile (· = '0')))
    (ha : ¬ atDigit dg r.2.1 = true) (hb : ¬ atDigit dg r.2.2 = true) : r.2.1.length + r.2.2.length < a.length + b.length := by
  obtain ⟨hsa, hsb, hna, hnb⟩ := nonDigitLoop_suffix dg h
  have hra : r.2.1 <:+ a' := hr ▸ (digitLoop_suffix dg 0 _ _).1.trans (List.dropWhile_suffix _)
  have hrb : r.2.2 <:+ b' := hr ▸ (digitLoop_suffix dg 0 _ _).2.trans (List.dropWhile_suffix _)
  have hempty : ∀ {s : Str}, atNonDigit dg s = false → ¬ atDigit dg s = true → s = [] := by
    intro s hn hd
    cases s with
    | nil => rfl
    | cons c s => simp_all [atNonDigit, atDigit]
  have hla := hra.length_le
  have hlb := hrb.length_le
  have hlsa := hsa.length_le
  have hlsb := hsb.length_le
  apply Nat.lt_of_not_le
  intro hle
  have ha' : r.2.1 = a' := hra.eq_of_length (by omega)
  have hb' : r.2.2 = b' := hrb.eq_of_length (by omega)
  have hanil : a' = [] := hempty hna (ha' ▸ ha)
  have hbnil : b' = [] := hempty hnb (hb' ▸ hb)
  apply hne
  rw [ha', hb', hanil, hbnil] at hle
  simpa using hle

def _verrevcmp (a b : Str) : Int :=
  if a = [] ∧ b = [] then 0
  else match h : nonDigitLoop dg a b with
    | .error r => r
    | .ok (a', b') =>
      let r := digitLoop dg 0 (a'.dropWhile (· = '0')) (b'.dropWhile (· = '0'))
      if ha : atDigit dg r.2.1 then 1
      else if hb : atDigit dg r.2.2 then -1
      else if r.1 ≠ 0 then r.1
      else _verrevcmp r.2.1 r.2.2
termination_by a.length + b.length
decreasing_by exact round_lt dg (by assumption) h _ rfl ha hb

def deb_compare (a b : Str) : Except PyError Int := do
  let (ea, ua, ra) ← _deb_split dg a
  let (eb, ub, rb) ← _deb_split dg b
  if ea ≠ eb then return if ea < eb then -1 else 1
  else return if _verrevcmp dg ua ub ≠ 0 then _verrevcmp dg ua ub else _verrevcmp dg ra rb

end

/-! ## dpkg's rule -/

/-- The non-digit part at the beginning, the digit part after it, and the rest. -/
def nonDigits (s : Str) : Str := s.takeWhile (!·.isDigit)

def afterNonDigits (s : Str) : Str := s.dropWhile (!·.isDigit)

def digits (s : Str) : Str := (afterNonDigits s).takeWhile Char.isDigit

def rest (s : Str) : Str := (afterNonDigits s).dropWhile Char.isDigit

theorem rest_lt {s : Str} (h : s ≠ []) : (rest s).length < s.length := by
  cases s with
  | nil => exact absurd rfl h
  | cons c s =>
    have hsub : (rest (c :: s)).length ≤ s.length := by
      cases hc : c.isDigit with
      | true =>
        have hsuf : s.dropWhile Char.isDigit <:+ s := List.dropWhile_suffix _
        simpa [rest, afterNonDigits, hc] using hsuf.length_le
      | false =>
        have hsuf : (s.dropWhile (!·.isDigit)).dropWhile Char.isDigit <:+ s :=
          (List.dropWhile_suffix _).trans (List.dropWhile_suffix _)
        simpa [rest, afterNonDigits, hc] using hsuf.length_le
    simp only [List.length_cons]
    omega

/-- A version text as alternating non-digit parts and numbers. -/
def parts (s : Str) : List (Str × Nat) :=
  if s = [] then [] else (nonDigits s, value (digits s)) :: parts (rest s)
termination_by s.length
decreasing_by exact rest_lt (by assumption)

/-- The place of a character in a non-digit part, and of the part's end. -/
def rank : Option Char → Nat × Nat
  | none => (1, 0)
  | some c => if c = '~' then (0, 0) else if c.isAlpha then (2, c.toNat) else (3, c.toNat)

def compareRank : Option Char → Option Char → Ordering :=
  compareLex (compareOn (fun x => (rank x).1)) (compareOn (fun x => (rank x).2))

def compareNonDigits : Str → Str → Ordering := onto (List.map some) (padLex compareRank none)

def comparePart : Str × Nat → Str × Nat → Ordering :=
  compareLex (onto Prod.fst compareNonDigits) (compareOn Prod.snd)

/-- Upstream versions and revisions; what is missing counts as an empty part and 0. -/
def compareParts : Str → Str → Ordering := onto parts (padLex comparePart ([], 0))

/-- Epoch, upstream version and revision, in this order. -/
def compareVersions : Int × Str × Str → Int × Str × Str → Ordering :=
  compareLex (compareOn Prod.fst)
    (compareLex (onto (fun v => v.2.1) compareParts) (onto (fun v => v.2.2) compareParts))

instance : Std.TransCmp compareRank := by unfold compareRank; infer_instance

instance : Std.TransCmp compareNonDigits := by unfold compareNonDigits; infer_instance

instance : Std.TransCmp comparePart := by unfold comparePart; infer_instance

instance : Std.TransCmp compareParts := by unfold compareParts; infer_instance

instance : Std.TransCmp compareVersions := by unfold compareVersions; infer_instance

/-! ## Non-digit parts -/

section
variable (dg : UnicodeDigits)

def Ascii (s : Str) : Prop := ∀ c ∈ s, c.toNat < 128

theorem Ascii.tail {s : Str} (h : Ascii s) : Ascii s.tail := fun c hc => h c (List.mem_of_mem_tail hc)

theorem Ascii.suffix {s t : Str} (h : Ascii s) (ht : t <:+ s) : Ascii t := fun c hc => h c (ht.subset hc)

/-- The order of a place in a non-digit part. -/
def orderOf : Option Char → Int
  | none => 0
  | some c => _deb_order dg c

/-- The order of the code and the rank of dpkg's rule of a place. -/
inductive Place : Int → Nat × Nat → Prop
  | tilde : Place (-1) (0, 0)
  | done : Place 0 (1, 0)
  | letter (n : Nat) (hn : 0 < n) (hlt : n < 128) : Place n (2, n)
  | other (n : Nat) : Place (n + 256) (3, n)

theorem place {x : Option Char} (h : ∀ c ∈ x, c.isDigit = false ∧ c.toNat < 128) : Place (orderOf dg x) (rank x) := by
  cases x with
  | none => exact .done
  | some c =>
    obtain ⟨hd, hlt⟩ := h c rfl
    simp only [orderOf, _deb_order, dg.isdigit_ascii c hlt, hd, rank]
    by_cases ht : c = '~'
    · subst ht
      exact .tilde
    · by_cases ha : c.isAlpha = true
      · have hpos : 0 < c.toNat := by
          apply Nat.pos_of_ne_zero
          intro hz
          rw [show c = Char.ofNat 0 from Char.toNat_inj.mp hz] at ha
          exact absurd ha (by decide)
        simpa [ht, ha] using Place.letter c.toNat hpos hlt
      · simpa [ht, ha] using Place.other c.toNat

theorem Place.compare_eq {o o' : Int} {k k' : Nat × Nat} (h : Place o k) (h' : Place o' k') :
    compare o o' = (compare k.1 k'.1).then (compare k.2 k'.2) := by
  have hlt : ∀ {o o' : Int} {k k' : Nat × Nat}, Place o k → Place o' k' → o < o' →
      k.1 < k'.1 ∨ k.1 = k'.1 ∧ k.2 < k'.2 := by
    intro o o' k k' h h' ho
    cases h <;> cases h' <;> dsimp only <;> omega
  have hless : ∀ {k k' : Nat × Nat}, k.1 < k'.1 ∨ k.1 = k'.1 ∧ k.2 < k'.2 →
      (compare k.1 k'.1).then (compare k.2 k'.2) = .lt := by
    rintro k k' (hk | ⟨hk, hk'⟩)
    · rw [Nat.compare_eq_lt.mpr hk, Ordering.lt_then]
    · rw [Nat.compare_eq_eq.mpr hk, Ordering.eq_then, Nat.compare_eq_lt.mpr hk']
  rcases Int.lt_trichotomy o o' with ho | ho | ho
  · rw [Int.compare_eq_lt.mpr ho, hless (hlt h h' ho)]
  · have hk : k.1 = k'.1 ∧ k.2 = k'.2 := by
      cases h <;> cases h' <;> dsimp only <;> omega
    rw [hk.1, hk.2, ho, Int.compare_eq_eq.mpr rfl, Nat.compare_eq_eq.mpr rfl, Ordering.eq_then, Nat.compare_eq_eq.mpr rfl]
  · rw [Int.compare_eq_gt.mpr ho, ← Ordering.swap_lt, ← hless (hlt h' h ho), Ordering.swap_then, Nat.compare_swap,
      Nat.compare_swap]

theorem compare_orderOf {x y : Option Char} (hx : ∀ c ∈ x, c.isDigit = false ∧ c.toNat < 128)
    (hy : ∀ c ∈ y, c.isDigit = false ∧ c.toNat < 128) : compare (orderOf dg x) (orderOf dg y) = compareRank x y :=
  (place dg hx).compare_eq (place dg hy)

theorem compareNonDigits_step (p q : Str) :
    compareNonDigits p q = (compareRank p.head? q.head?).then (compareNonDigits p.tail q.tail) := by
  have hhead : ∀ s : Str, (s.map some).headD none = s.head? := by
    intro s
    cases s <;> rfl
  rw [compareNonDigits, onto, padLex_step, hhead, hhead, ← List.map_tail, ← List.map_tail]
  rfl

theorem head_nonDigits {s : Str} (h : Ascii s) : ∀ c ∈ (nonDigits s).head?, c.isDigit = false ∧ c.toNat < 128 := by
  intro c hc
  have hmem : c ∈ nonDigits s := List.mem_of_mem_head? hc
  exact ⟨by simpa using List.mem_takeWhile_imp hmem, h c (List.takeWhile_subset _ hmem)⟩

theorem nextOrder_eq {s : Str} (h : Ascii s) : nextOrder dg s = orderOf dg (nonDigits s).head? := by
  cases s with
  | nil => rfl
  | cons c s =>
    have hd := dg.isdigit_ascii c (h c (by simp))
    cases hc : c.isDigit with
    | true => simp [nextOrder, nonDigits, hc, orderOf, _deb_order, hd]
    | false => simp [nextOrder, nonDigits, hc, orderOf]

theorem atNonDigit_eq {s : Str} (h : Ascii s) : atNonDigit dg s = (nonDigits s).head?.isSome := by
  cases s with
  | nil => rfl
  | cons c s =>
    have hd := dg.isdigit_ascii c (h c (by simp))
    cases hc : c.isDigit <;> simp [atNonDigit, nonDigits, hc, hd]

theorem nonDigits_tail {s : Str} (h : (nonDigits s).head?.isSome = true) :
    nonDigits s.tail = (nonDigits s).tail ∧ afterNonDigits s.tail = afterNonDigits s := by
  cases s with
  | nil => simp [nonDigits] at h
  | cons c s =>
    cases hc : c.isDigit with
    | true => simp [nonDigits, hc] at h
    | false => simp [nonDigits, afterNonDigits, hc]

theorem afterNonDigits_of_none {s : Str} (h : (nonDigits s).head?.isSome = false) : afterNonDigits s = s := by
  cases s with
  | nil => rfl
  | cons c s =>
    cases hc : c.isDigit with
    | true => simp [afterNonDigits, hc]
    | false => simp [nonDigits, hc] at h

theorem Place.done_of_zero {o : Int} {k : Nat × Nat} (h : Place o k) (ho : o = 0) : k.1 = 1 := by
  cases h <;> dsimp only <;> omega

/-- Only the end of a part has the order 0. -/
theorem orderOf_eq_zero {x : Option Char} (hx : ∀ c ∈ x, c.isDigit = false ∧ c.toNat < 128) (h : orderOf dg x = 0) :
    x.isSome = false := by
  cases x with
  | none => rfl
  | some c =>
    have hone := (place dg hx).done_of_zero h
    simp only [rank] at hone
    split at hone
    · simp at hone
    · split at hone <;> simp at hone

/-- The code's loop over characters that are no digits is dpkg's comparison of two
non-digit parts. -/
theorem nonDigitLoop_spec {a b : Str} (ha : Ascii a) (hb : Ascii b) :
    match nonDigitLoop dg a b with
    | .error r => r = sign (compareNonDigits (nonDigits a) (nonDigits b)) ∧
        compareNonDigits (nonDigits a) (nonDigits b) ≠ .eq
    | .ok (a', b') => compareNonDigits (nonDigits a) (nonDigits b) = .eq ∧ a' = afterNonDigits a ∧ b' = afterNonDigits b := by
  fun_induction nonDigitLoop dg a b with
  | case1 a b hn ho =>
    rw [nextOrder_eq dg ha, nextOrder_eq dg hb] at ho ⊢
    have hc := compare_orderOf dg (head_nonDigits ha) (head_nonDigits hb)
    rw [compareNonDigits_step, ← hc]
    rcases Int.lt_or_gt_of_ne ho with hlt | hgt
    · simp [hlt, Int.compare_eq_lt.mpr hlt, sign]
    · simp [Int.compare_eq_gt.mpr hgt, Int.le_of_lt hgt, sign]
  | case2 a b hn ho ih =>
    have heq := not_ne_iff.mp ho
    rw [nextOrder_eq dg ha, nextOrder_eq dg hb] at heq
    have hc := compare_orderOf dg (head_nonDigits ha) (head_nonDigits hb)
    rw [Int.compare_eq_eq.mpr heq] at hc
    rw [atNonDigit_eq dg ha, atNonDigit_eq dg hb] at hn
    have hsome : (nonDigits a).head?.isSome = true ∧ (nonDigits b).head?.isSome = true := by
      have hza := orderOf_eq_zero dg (head_nonDigits ha)
      have hzb := orderOf_eq_zero dg (head_nonDigits hb)
      cases hpa : (nonDigits a).head? <;> cases hpb : (nonDigits b).head? <;> simp_all [orderOf]
    obtain ⟨hta, haa⟩ := nonDigits_tail hsome.1
    obtain ⟨htb, hab⟩ := nonDigits_tail hsome.2
    have hrest := ih ha.tail hb.tail
    rw [compareNonDigits_step, ← hc, Ordering.eq_then, ← hta, ← htb, ← haa, ← hab]
    exact hrest
  | case3 a b hn =>
    simp only [atNonDigit_eq dg ha, atNonDigit_eq dg hb, Bool.or_eq_true, not_or, Bool.not_eq_true] at hn
    have hna : nonDigits a = [] := by simpa using hn.1
    have hnb : nonDigits b = [] := by simpa using hn.2
    refine ⟨?_, (afterNonDigits_of_none hn.1).symm, (afterNonDigits_of_none hn.2).symm⟩
    rw [hna, hnb]
    simp [compareNonDigits, onto, padLex]

/-! ## Digit parts -/

theorem atDigit_eq {s : Str} (h : Ascii s) : atDigit dg s = s.head?.any Char.isDigit := by
  cases s with
  | nil => rfl
  | cons c s => simp [atDigit, dg.isdigit_ascii c (h c (by simp))]

/-- The loop over digits stops where the shorter digit part stops. -/
theorem digitLoop_spec {a b : Str} (ha : Ascii a) (hb : Ascii b) (first_diff : Int) :
    digitLoop dg first_diff a b =
      let da := a.takeWhile Char.isDigit
      let db := b.takeWhile Char.isDigit
      let n := min da.length db.length
      (if first_diff = 0 then sign (compare (da.take n) (db.take n)) else first_diff, a.drop n, b.drop n) := by
  have hstop : ∀ n : Int, (if n = 0 then sign (compare ([] : Str) []) else n) = n := by
    intro n
    by_cases h : n = 0 <;> simp [h, sign]
  induction a generalizing b first_diff with
  | nil => simp only [digitLoop, List.takeWhile_nil, List.length_nil, Nat.zero_min, List.take_zero, List.drop_zero, hstop]
  | cons x a ih =>
    cases b with
    | nil => simp only [digitLoop, List.takeWhile_nil, List.length_nil, Nat.min_zero, List.take_zero, List.drop_zero, hstop]
    | cons y b =>
      have hx := dg.isdigit_ascii x (ha x (by simp))
      have hy := dg.isdigit_ascii y (hb y (by simp))
      by_cases hxy : x.isDigit = true ∧ y.isDigit = true
      · have hrest := @ih b ha.tail hb.tail (if first_diff = 0 then sign (compare x y) else first_diff)
        simp only [digitLoop, hx, hy, hxy, and_self, if_true, List.takeWhile_cons_of_pos, List.length_cons,
          Nat.add_min_add_right, List.take_succ_cons, List.drop_succ_cons, List.compare_cons_cons]
        rw [hrest]
        by_cases hfd : first_diff = 0
        · cases hc : compare x y <;> simp [hfd, sign]
        · simp [hfd]
      · have hn : min ((x :: a).takeWhile Char.isDigit).length ((y :: b).takeWhile Char.isDigit).length = 0 := by
          cases hxd : x.isDigit <;> cases hyd : y.isDigit <;> simp_all
        simp only [digitLoop, hx, hy, hxy, if_false, hn, List.take_zero, List.drop_zero, hstop]

theorem takeWhile_dropZeros (s : Str) :
    (s.dropWhile (· = '0')).takeWhile Char.isDigit = (s.takeWhile Char.isDigit).dropWhile (· = '0') := by
  induction s with
  | nil => rfl
  | cons c s ih =>
    by_cases hc : c = '0'
    · subst hc
      simpa using ih
    · cases hd : c.isDigit <;> simp [hc, hd]

theorem dropWhile_dropZeros (s : Str) : (s.dropWhile (· = '0')).dropWhile Char.isDigit = s.dropWhile Char.isDigit := by
  induction s with
  | nil => rfl
  | cons c s ih =>
    by_cases hc : c = '0'
    · subst hc
      simpa using ih
    · simp [hc]

theorem drop_length_takeWhile (s : Str) :
    s.drop (s.takeWhile Char.isDigit).length = s.dropWhile Char.isDigit := by
  induction s with
  | nil => rfl
  | cons c s ih => cases hd : c.isDigit <;> simp [hd, ih]

theorem head_drop_takeWhile (s : Str) (n : Nat) (h : n < (s.takeWhile Char.isDigit).length) :
    (s.drop n).head?.any Char.isDigit = true := by
  induction s generalizing n with
  | nil => simp at h
  | cons c s ih =>
    cases hd : c.isDigit with
    | false => simp [hd] at h
    | true =>
      cases n with
      | zero => simp [hd]
      | succ n => exact ih n (by simpa [hd] using h)

theorem head_dropWhile (s : Str) : (s.dropWhile Char.isDigit).head?.any Char.isDigit = false := by
  induction s with
  | nil => rfl
  | cons c s ih => cases hd : c.isDigit <;> simp [hd, ih]

theorem lead_dropZeros (s : Str) : ((s.dropWhile (· = '0')).takeWhile Char.isDigit).head? ≠ some '0' := by
  induction s with
  | nil => simp
  | cons c s ih =>
    by_cases hc : c = '0'
    · simpa [hc] using ih
    · cases hd : c.isDigit <;> simp [hc, hd]

/-- A round of the outer loop after the non-digit parts compares two numbers: it
returns their order, or goes on after both. -/
theorem digitRound {a b : Str} (ha : Ascii a) (hb : Ascii b) (r : Int × Str × Str)
    (hr : r = digitLoop dg 0 (a.dropWhile (· = '0')) (b.dropWhile (· = '0'))) :
    (compare (value (a.takeWhile Char.isDigit)) (value (b.takeWhile Char.isDigit)) = .gt ∧ atDigit dg r.2.1 = true) ∨
    (compare (value (a.takeWhile Char.isDigit)) (value (b.takeWhile Char.isDigit)) = .lt ∧ atDigit dg r.2.1 = false ∧
      atDigit dg r.2.2 = true) ∨
    (atDigit dg r.2.1 = false ∧ atDigit dg r.2.2 = false ∧
      r.1 = sign (compare (value (a.takeWhile Char.isDigit)) (value (b.takeWhile Char.isDigit))) ∧
      r.2 = (a.dropWhile Char.isDigit, b.dropWhile Char.isDigit)) := by
  have hza : Ascii (a.dropWhile (· = '0')) := ha.suffix (List.dropWhile_suffix _)
  have hzb : Ascii (b.dropWhile (· = '0')) := hb.suffix (List.dropWhile_suffix _)
  rw [digitLoop_spec dg hza hzb] at hr
  rw [← value_dropZeros (a.takeWhile Char.isDigit), ← value_dropZeros (b.takeWhile Char.isDigit), ← takeWhile_dropZeros,
    ← takeWhile_dropZeros, ← dropWhile_dropZeros a, ← dropWhile_dropZeros b]
  have hla := lead_dropZeros a
  have hlb := lead_dropZeros b
  generalize a.dropWhile (· = '0') = a at *
  generalize b.dropWhile (· = '0') = b at *
  have hda : ∀ c ∈ a.takeWhile Char.isDigit, c.isDigit = true := fun c hc => List.mem_takeWhile_imp hc
  have hdb : ∀ c ∈ b.takeWhile Char.isDigit, c.isDigit = true := fun c hc => List.mem_takeWhile_imp hc
  have hend : ∀ s : Str, (s.drop (s.takeWhile Char.isDigit).length).head?.any Char.isDigit = false := by
    intro s
    rw [drop_length_takeWhile, head_dropWhile]
  have hra : Ascii r.2.1 := by
    rw [hr]
    exact hza.suffix (List.drop_suffix _ _)
  have hrb : Ascii r.2.2 := by
    rw [hr]
    exact hzb.suffix (List.drop_suffix _ _)
  rw [atDigit_eq dg hra, atDigit_eq dg hrb]
  subst hr
  rcases Nat.lt_trichotomy (a.takeWhile Char.isDigit).length (b.takeWhile Char.isDigit).length with h | h | h
  · refine Or.inr (Or.inl ⟨Nat.compare_eq_lt.mpr (value_lt_of_length hda hdb hlb h), ?_, ?_⟩)
    · simpa [Nat.min_eq_left (Nat.le_of_lt h)] using hend a
    · simpa [Nat.min_eq_left (Nat.le_of_lt h)] using head_drop_takeWhile b _ h
  · refine Or.inr (Or.inr ?_)
    have hn : min (a.takeWhile Char.isDigit).length (b.takeWhile Char.isDigit).length =
        (b.takeWhile Char.isDigit).length := by omega
    simp only [hn, if_true]
    rw [compare_value hda hdb h, List.take_of_length_le (Nat.le_of_eq h), List.take_of_length_le (Nat.le_refl _)]
    refine ⟨?_, hend b, rfl, ?_⟩
    · rw [← h]
      exact hend a
    · rw [drop_length_takeWhile, ← h, drop_length_takeWhile]
  · refine Or.inl ⟨Nat.compare_eq_gt.mpr (value_lt_of_length hdb hda hla h), ?_⟩
    simpa [Nat.min_eq_right (Nat.le_of_lt h)] using head_drop_takeWhile a _ h

/-! ## The two orders agree -/

theorem parts_step (a b : Str) : compareParts a b =
    (comparePart (nonDigits a, value (digits a)) (nonDigits b, value (digits b))).then (compareParts (rest a) (rest b)) := by
  have hhead : ∀ s : Str, (parts s).headD ([], 0) = (nonDigits s, value (digits s)) ∧ (parts s).tail = parts (rest s) := by
    intro s
    rw [parts]
    by_cases hs : s = []
    · subst hs
      simp [nonDigits, digits, afterNonDigits, rest, parts]
    · simp [hs]
  rw [compareParts, onto, padLex_step, (hhead a).1, (hhead b).1, (hhead a).2, (hhead b).2]
  rfl

/-- After equal non-digit parts, the numbers decide, and then the rest. -/
theorem compareParts_of_ok {a b a' b' : Str} (ha : Ascii a) (hb : Ascii b) (h : nonDigitLoop dg a b = .ok (a', b')) :
    compareParts a b = (compare (value (a'.takeWhile Char.isDigit)) (value (b'.takeWhile Char.isDigit))).then
      (compareParts (a'.dropWhile Char.isDigit) (b'.dropWhile Char.isDigit)) := by
  have hspec := nonDigitLoop_spec dg ha hb
  rw [h] at hspec
  obtain ⟨heq, rfl, rfl⟩ := hspec
  rw [parts_step, comparePart, compareLex, onto, heq, Ordering.eq_then]
  rfl

/-- The walk of the code is dpkg's comparison part by part. -/
theorem verrevcmp_eq {a b : Str} (ha : Ascii a) (hb : Ascii b) : _verrevcmp dg a b = sign (compareParts a b) := by
  fun_induction _verrevcmp dg a b with
  | case1 a b h =>
    obtain ⟨rfl, rfl⟩ := h
    simp [compareParts, onto, parts, padLex, sign]
  | case2 a b hne r h =>
    have hspec := nonDigitLoop_spec dg ha hb
    rw [h] at hspec
    obtain ⟨hr, hspec⟩ := hspec
    rw [parts_step, comparePart, compareLex, onto, hr]
    cases hc : compareNonDigits (nonDigits a) (nonDigits b) with
    | lt => rfl
    | eq => exact absurd hc hspec
    | gt => rfl
  | case3 a b hne a' b' h r hda =>
    obtain ⟨hsa, hsb, -⟩ := nonDigitLoop_suffix dg h
    rw [compareParts_of_ok dg ha hb h]
    rcases digitRound dg (ha.suffix hsa) (hb.suffix hsb) r rfl with hr | hr | hr
    · rw [hr.1]
      rfl
    · simp [hr.2.1] at hda
    · simp [hr.1] at hda
  | case4 a b hne a' b' h r hda hdb =>
    obtain ⟨hsa, hsb, -⟩ := nonDigitLoop_suffix dg h
    rw [compareParts_of_ok dg ha hb h]
    rcases digitRound dg (ha.suffix hsa) (hb.suffix hsb) r rfl with hr | hr | hr
    · exact absurd hr.2 hda
    · rw [hr.1]
      rfl
    · simp [hr.2.1] at hdb
  | case5 a b hne a' b' h r hda hdb hdiff =>
    obtain ⟨hsa, hsb, -⟩ := nonDigitLoop_suffix dg h
    rw [compareParts_of_ok dg ha hb h]
    rcases digitRound dg (ha.suffix hsa) (hb.suffix hsb) r rfl with hr | hr | hr
    · exact absurd hr.2 hda
    · exact absurd hr.2.2 hdb
    · obtain ⟨-, -, hsign, -⟩ := hr
      rw [hsign] at hdiff ⊢
      cases hc : compare (value (a'.takeWhile Char.isDigit)) (value (b'.takeWhile Char.isDigit)) with
      | lt => rfl
      | eq => simp [hc, sign] at hdiff
      | gt => rfl
  | case6 a b hne a' b' h r hda hdb hdiff ih =>
    obtain ⟨hsa, hsb, -⟩ := nonDigitLoop_suffix dg h
    rw [compareParts_of_ok dg ha hb h]
    rcases digitRound dg (ha.suffix hsa) (hb.suffix hsb) r rfl with hr | hr | hr
    · exact absurd hr.2 hda
    · exact absurd hr.2.2 hdb
    · obtain ⟨-, -, hsign, hrest⟩ := hr
      have hzero := (sign_eq_zero _).mp (hsign ▸ not_ne_iff.mp hdiff)
      have hra : r.2.1 = a'.dropWhile Char.isDigit := by rw [hrest]
      have hrb : r.2.2 = b'.dropWhile Char.isDigit := by rw [hrest]
      rw [hzero, Ordering.eq_then, ← hra, ← hrb]
      apply ih
      · rw [hra]
        exact (ha.suffix hsa).suffix (List.dropWhile_suffix _)
      · rw [hrb]
        exact (hb.suffix hsb).suffix (List.dropWhile_suffix _)

/-! ## Epochs -/

/-- The characters before the first colon. -/
def epochText (v : Str) : Str := (strip v).takeWhile (· ≠ ':')

/-- An epoch has at most as many digits as `int` reads. -/
def EpochFits (v : Str) : Prop := ':' ∈ strip v → (epochText v).all Char.isDigit = true → (epochText v).length ≤ 4300

theorem isDigit_ascii {c : Char} (h : c.isDigit = true) : c.toNat < 128 := by
  have hc := Char.isDigit_iff_toNat.mp h
  have h9 : '9'.toNat = 57 := rfl
  omega

theorem digitsFrom_digits {e : Str} (h : ∀ c ∈ e, c.isDigit = true) : digitsFrom dg.toDigits e = some (e.map digit) := by
  induction e with
  | nil => rfl
  | cons c e ih =>
    have hc := h c (by simp)
    have hval : dg.value c = some (digit c) := by
      rw [dg.value_ascii c (isDigit_ascii hc)]
      simp [asciiDigits, hc, digit]
    have hne : c ≠ '_' := by
      rintro rfl
      exact absurd hc (by decide)
    rw [digitsFrom]
    · simp [hval, ih (fun x hx => h x (by simp [hx]))]
    · intro _ _ hc' _
      exact hne hc'

theorem not_isSpace_of_isDigit {c : Char} (h : c.isDigit = true) : isSpace c = false := by
  have hc := Char.isDigit_iff_toNat.mp h
  have h0 : '0'.toNat = 48 := rfl
  have h9 : '9'.toNat = 57 := rfl
  simp only [isSpace, Bool.or_eq_false_iff, Bool.and_eq_false_iff, decide_eq_false_iff_not]
  omega

theorem int_digits_iff {e : Str} (hne : e ≠ []) (h : ∀ c ∈ e, c.isDigit = true) :
    int dg.toDigits e = if e.length ≤ 4300 then some (value e : Int) else none := by
  have hhead : e.head? ≠ some '_' := by
    intro hh
    exact absurd (h '_' (List.mem_of_mem_head? hh)) (by decide)
  have hnat : natural dg.toDigits e = if e.length ≤ 4300 then some (value e) else none := by
    rw [natural, if_neg (by simp [hne, hhead]), digitsFrom_digits dg h]
    simp [List.foldl_map, value]
  unfold int
  split
  · exact absurd (h '-' (by simp)) (by decide)
  · exact absurd (h '+' (by simp)) (by decide)
  · rw [hnat]
    split <;> rfl

theorem int_digits {e : Str} (hne : e ≠ []) (h : ∀ c ∈ e, c.isDigit = true) (hlen : e.length ≤ 4300) :
    int dg.toDigits e = some (value e : Int) := by
  rw [int_digits_iff dg hne h, if_pos hlen]

theorem strip_digits {e : Str} (h : ∀ c ∈ e, c.isDigit = true) : strip e = e := by
  have hkeep : ∀ s : Str, (∀ c ∈ s, c.isDigit = true) → s.dropWhile isSpace = s := by
    intro s hs
    cases s with
    | nil => rfl
    | cons c s => simp [not_isSpace_of_isDigit (hs c (by simp))]
  rw [strip, lstrip, hkeep e h, rstrip, hkeep _ (by simpa using h), List.reverse_reverse]

theorem mem_of_mem_strip {s : Str} {c : Char} (h : c ∈ strip s) : c ∈ s :=
  (List.dropWhile_suffix isSpace).subset (List.IsPrefix.subset ( rstrip_prefix _) h)

theorem Ascii.strip {s : Str} (h : Ascii s) : Ascii (strip s) := fun c hc => h c (mem_of_mem_strip hc)

theorem Ascii.rsplit {s : Str} (h : Ascii s) (c : Char) : Ascii (rsplit c s).1 ∧ Ascii (rsplit c s).2 := by
  constructor
  · intro x hx
    have hmem : x ∈ s.reverse :=
      (List.dropWhile_suffix _).subset (List.mem_of_mem_tail (List.mem_reverse.mp hx))
    exact h x (List.mem_reverse.mp hmem)
  · intro x hx
    exact h x (List.mem_reverse.mp ((List.takeWhile_prefix _).subset (List.mem_reverse.mp hx)))

/-- The parts that `_deb_split` gives after the epoch. -/
def upstreamRevision (v : Str) : Str × Str := if '-' ∈ v then rsplit '-' v else (v, [])

theorem Ascii.upstreamRevision {v : Str} (h : Ascii v) :
    Ascii (upstreamRevision v).1 ∧ Ascii (upstreamRevision v).2 := by
  unfold DebVersions.upstreamRevision
  split
  · exact h.rsplit '-'
  · exact ⟨h, by simp [Ascii]⟩

def hasEpoch (v : Str) : Prop := ':' ∈ strip v ∧ epochText v ≠ [] ∧ (epochText v).all Char.isDigit = true

instance (v : Str) : Decidable (hasEpoch v) := inferInstanceAs (Decidable (_ ∧ _))

theorem deb_split_unfold {v : Str} (hv : Ascii v) : _deb_split dg v =
    if hasEpoch v then
      match int dg.toDigits (strip (epochText v)) with
      | some epoch => .ok (epoch, upstreamRevision ((strip v).drop ((epochText v).length + 1)))
      | none => .error .valueError
    else .ok (0, upstreamRevision (strip v)) := by
  have hall : (epochText v).all dg.isdigit = (epochText v).all Char.isDigit := by
    have hmem : ∀ c ∈ epochText v, dg.isdigit c = c.isDigit :=
      fun c hc => dg.isdigit_ascii c (hv.strip c ((List.takeWhile_prefix _).subset hc))
    rw [Bool.eq_iff_iff, List.all_eq_true, List.all_eq_true]
    exact ⟨fun h c hc => hmem c hc ▸ h c hc, fun h c hc => (hmem c hc).symm ▸ h c hc⟩
  have hparts : ∀ (n : Int) (s : Str), (if '-' ∈ s then (n, rsplit '-' s) else (n, s, [])) = (n, upstreamRevision s) := by
    intro n s
    unfold upstreamRevision
    split <;> rfl
  have hif : hasEpoch v = (':' ∈ strip v ∧ epochText v ≠ [] ∧ (epochText v).all dg.isdigit = true) := by
    rw [hall]
    rfl
  simp only [_deb_split, hparts, hif]
  rfl

theorem deb_split_eq {v : Str} (hv : Ascii v) (hf : EpochFits v) : _deb_split dg v = .ok
    (if hasEpoch v then (value (epochText v), upstreamRevision ((strip v).drop ((epochText v).length + 1)))
    else (0, upstreamRevision (strip v))) := by
  rw [deb_split_unfold dg hv]
  by_cases he : hasEpoch v
  · have hdigits := List.all_eq_true.mp he.2.2
    rw [if_pos he, if_pos he, strip_digits hdigits, int_digits dg he.2.1 hdigits (hf he.1 he.2.2)]
  · rw [if_neg he, if_neg he]

theorem deb_split_ok {v : Str} (hv : Ascii v) (hf : EpochFits v) :
    ∃ w, _deb_split dg v = .ok w ∧ Ascii w.2.1 ∧ Ascii w.2.2 := by
  refine ⟨_, deb_split_eq dg hv hf, ?_⟩
  split
  · exact (hv.strip.suffix (List.drop_suffix _ _)).upstreamRevision
  · exact hv.strip.upstreamRevision

theorem deb_compare_eq {a b : Str} {va vb : Int × Str × Str} (ha : _deb_split dg a = .ok va) (hb : _deb_split dg b = .ok vb)
    (hva : Ascii va.2.1 ∧ Ascii va.2.2) (hvb : Ascii vb.2.1 ∧ Ascii vb.2.2) :
    deb_compare dg a b = .ok (sign (compareVersions va vb)) := by
  obtain ⟨ea, ua, ra⟩ := va
  obtain ⟨eb, ub, rb⟩ := vb
  have hu := verrevcmp_eq dg hva.1 hvb.1
  have hr := verrevcmp_eq dg hva.2 hvb.2
  simp only [deb_compare, ha, hb, bind, Except.bind, pure, Except.pure, compareVersions, compareLex, compareOn, onto]
  rcases Int.lt_trichotomy ea eb with h | h | h
  · simp [Int.ne_of_lt h, h, Int.compare_eq_lt.mpr h, sign]
  · subst h
    rw [Int.compare_eq_eq.mpr rfl, Ordering.eq_then, hu, hr]
    cases hc : compareParts ua ub <;> simp [sign]
  · simp [Int.ne_of_gt h, Int.le_of_lt h, Int.compare_eq_gt.mpr h, sign]

/-! ## A missing revision -/

theorem revision_zero (e : Int) (u : Str) : compareVersions (e, u, []) (e, u, ['0']) = .eq := by
  have hzero : compareParts [] ['0'] = .eq := by
    simp [compareParts, onto, parts, nonDigits, digits, rest, afterNonDigits, value, digit, padLex, comparePart, compareLex,
      compareOn, compareNonDigits]
  have hu : compareParts u u = .eq := Std.ReflCmp.compare_self
  simp [compareVersions, compareLex, compareOn, onto, hzero, hu]

theorem upstreamRevision_append (u : Str) : upstreamRevision (u ++ ['-', '0']) = (u, ['0']) := by
  simp [upstreamRevision, rsplit]

theorem takeWhile_append_of_mem {p : Char → Bool} {s : Str} {x : Char} (hx : x ∈ s) (hp : p x = false) (t : Str) :
    (s ++ t).takeWhile p = s.takeWhile p ∧ (s.takeWhile p).length < s.length := by
  induction s with
  | nil => simp at hx
  | cons c s ih =>
    cases hc : p c with
    | false => simp [hc]
    | true =>
      have hmem : x ∈ s := by
        rcases List.mem_cons.mp hx with rfl | hx
        · simp [hc] at hp
        · exact hx
      simpa [hc] using ih hmem

/-- A missing revision equals the revision 0. -/
theorem deb_compare_revision_zero {a : Str} (ha : Ascii a) (hf : EpochFits a) (hn : '-' ∉ a) :
    deb_compare dg a (strip a ++ ['-', '0']) = .ok 0 := by
  have hstrip : strip (strip a ++ ['-', '0']) = strip a ++ ['-', '0'] :=
    strip_append (by simp) (by simp [isSpace]) (by simp [isSpace])
  have hcolon : ':' ∈ strip (strip a ++ ['-', '0']) ↔ ':' ∈ strip a := by
    rw [hstrip]
    simp
  have hepoch : ':' ∈ strip a → epochText (strip a ++ ['-', '0']) = epochText a := by
    intro h
    rw [epochText, hstrip]
    exact (takeWhile_append_of_mem h (by simp) _).1
  have hhas : hasEpoch (strip a ++ ['-', '0']) ↔ hasEpoch a := by
    unfold hasEpoch
    rw [hcolon]
    exact and_congr_right (fun h => by rw [hepoch h])
  have hfits : EpochFits (strip a ++ ['-', '0']) := by
    intro h hall
    rw [hepoch (hcolon.mp h)] at hall ⊢
    exact hf (hcolon.mp h) hall
  have hascii : Ascii (strip a ++ ['-', '0']) := by
    intro c hc
    rcases List.mem_append.mp hc with hc | hc
    · exact ha.strip c hc
    · simp only [List.mem_cons, List.not_mem_nil, or_false] at hc
      rcases hc with rfl | rfl <;> decide
  have hno : ∀ s, s <:+ strip a → upstreamRevision s = (s, []) := by
    intro s hs
    have hmem : '-' ∉ s := fun h => hn (mem_of_mem_strip (hs.subset h))
    simp [upstreamRevision, hmem]
  obtain ⟨va, hva, hua⟩ := deb_split_ok dg ha hf
  obtain ⟨vb, hvb, hub⟩ := deb_split_ok dg hascii hfits
  rw [deb_compare_eq dg hva hvb hua hub]
  rw [deb_split_eq dg ha hf] at hva
  rw [deb_split_eq dg hascii hfits, hstrip] at hvb
  cases hva
  cases hvb
  by_cases he : hasEpoch a
  · have hlen := (takeWhile_append_of_mem he.1 (p := (· ≠ ':')) (by simp) []).2
    have hdrop : (strip a ++ ['-', '0']).drop ((epochText a).length + 1) =
        (strip a).drop ((epochText a).length + 1) ++ ['-', '0'] := List.drop_append_of_le_length hlen
    rw [if_pos he, if_pos (hhas.mpr he), hepoch he.1, hdrop, hno _ (List.drop_suffix _ _), upstreamRevision_append,
      revision_zero]
    rfl
  · rw [if_neg he, if_neg (fun h => he (hhas.mp h)), hno _ List.suffix_rfl, upstreamRevision_append, revision_zero]
    rfl

/-- On versions whose epoch `int` can read, `deb_compare` is dpkg's order of epoch,
upstream version and revision, and so a total preorder. -/
theorem deb_compare_is_dpkg_order (a b c : Str) (ha : Ascii a) (hb : Ascii b) (hc : Ascii c) (hfa : EpochFits a)
    (hfb : EpochFits b) (hfc : EpochFits c) :
    (∃ va vb, _deb_split dg a = .ok va ∧ _deb_split dg b = .ok vb ∧
      deb_compare dg a b = .ok (sign (compareVersions va vb))) ∧
    (∃ x, deb_compare dg a b = .ok x ∧ deb_compare dg b a = .ok (-x)) ∧
    (∀ x y, deb_compare dg a b = .ok x → deb_compare dg b c = .ok y → x ≤ 0 → y ≤ 0 →
      ∃ z, deb_compare dg a c = .ok z ∧ z ≤ 0) ∧
    ('-' ∉ a → deb_compare dg a (strip a ++ ['-', '0']) = .ok 0) := by
  obtain ⟨va, hva, hua⟩ := deb_split_ok dg ha hfa
  obtain ⟨vb, hvb, hub⟩ := deb_split_ok dg hb hfb
  obtain ⟨vc, hvc, huc⟩ := deb_split_ok dg hc hfc
  have hab := deb_compare_eq dg hva hvb hua hub
  have hba := deb_compare_eq dg hvb hva hub hua
  have hbc := deb_compare_eq dg hvb hvc hub huc
  have hac := deb_compare_eq dg hva hvc hua huc
  refine ⟨⟨va, vb, hva, hvb, hab⟩, ⟨_, hab, ?_⟩, ?_, deb_compare_revision_zero dg ha hfa⟩
  · rw [hba, @Std.OrientedCmp.eq_swap _ compareVersions _ vb va, sign_swap]
  · intro x y hx hy hx0 hy0
    rw [hab] at hx
    rw [hbc] at hy
    cases hx
    cases hy
    refine ⟨_, hac, (sign_nonpos _).mpr ?_⟩
    exact Std.TransCmp.isLE_trans ((sign_nonpos _).mp hx0) ((sign_nonpos _).mp hy0)

end

/-- A pre-release, the release and a rebuild of it, with an epoch. -/
theorem release_order : ∃ x,
    deb_compare asciiOnly (lit "1:8.9~rc1-1") (lit "1:8.9-1") = .ok x ∧
    deb_compare asciiOnly (lit "1:8.9-1") (lit "1:8.9~rc1-1") = .ok (-x) :=
  (deb_compare_is_dpkg_order asciiOnly (lit "1:8.9~rc1-1") (lit "1:8.9-1") (lit "1:8.9-1ubuntu0.10")
    (forall_mem_of_all (by with_unfolding_all decide)) (forall_mem_of_all (by with_unfolding_all decide))
      (forall_mem_of_all (by with_unfolding_all decide))
    (by unfold EpochFits; with_unfolding_all decide) (by unfold EpochFits; with_unfolding_all decide)
    (by unfold EpochFits; with_unfolding_all decide)).2.1

/-- An epoch with more digits than `int` reads is not compared. -/
theorem deb_compare_long_epoch (dg : UnicodeDigits) {e : Str} (h : ∀ c ∈ e, c.isDigit = true) (hlen : 4300 < e.length)
    (b : Str) : deb_compare dg (e ++ [':', '1']) b = .error .valueError := by
  have hne : e ≠ [] := List.ne_nil_of_length_pos (by omega)
  have hascii : Ascii (e ++ [':', '1']) := by
    intro c hc
    rcases List.mem_append.mp hc with hc | hc
    · exact isDigit_ascii (h c hc)
    · simp only [List.mem_cons, List.not_mem_nil, or_false] at hc
      rcases hc with rfl | rfl <;> decide
  have hstrip : strip (e ++ [':', '1']) = e ++ [':', '1'] := by
    have happend : strip (strip e ++ [':', '1']) = strip e ++ [':', '1'] := strip_append (by simp) (by simp [isSpace]) (by simp [isSpace])
    rwa [strip_digits h] at happend
  have htext : epochText (e ++ [':', '1']) = e := by
    rw [epochText, hstrip, List.takeWhile_append_of_pos]
    · simp
    · intro c hc
      have hcolon : c ≠ ':' := by
        rintro rfl
        exact absurd (h _ hc) (by decide)
      simpa using hcolon
  have hhas : hasEpoch (e ++ [':', '1']) := by
    refine ⟨?_, ?_, ?_⟩
    · simp [hstrip]
    · rwa [htext]
    · rw [htext]
      exact List.all_eq_true.mpr h
  have hint : int dg.toDigits e = none := by rw [int_digits_iff dg hne h, if_neg (by omega)]
  rw [deb_compare, deb_split_unfold dg hascii, if_pos hhas, htext, strip_digits h, hint]
  rfl

/-- An epoch of 4301 digits is not compared. -/
theorem long_epoch_raises : Ascii (List.replicate 4301 '1' ++ [':', '1']) ∧ '\n' ∉ List.replicate 4301 '1' ++ [':', '1'] ∧
    deb_compare asciiOnly (List.replicate 4301 '1' ++ [':', '1']) ['1'] = .error .valueError := by
  have hmem : ∀ c ∈ List.replicate 4301 '1' ++ [':', '1'], c = '1' ∨ c = ':' := by
    intro c hc
    rcases List.mem_append.mp hc with hc | hc
    · exact Or.inl (List.eq_of_mem_replicate hc)
    · simpa [or_comm] using hc
  refine ⟨?_, ?_, deb_compare_long_epoch asciiOnly ?_ (by rw [List.length_replicate]; decide) ['1']⟩
  · intro c hc
    rcases hmem c hc with rfl | rfl <;> decide
  · intro hn
    rcases hmem _ hn with h | h <;> exact absurd h (by decide)
  · intro c hc
    rw [List.eq_of_mem_replicate hc]
    decide

end DebVersions
