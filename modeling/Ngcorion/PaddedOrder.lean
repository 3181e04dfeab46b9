import Mathlib.Order.Compare
import Mathlib.Tactic.Common
import Mathlib.Tactic.Ring
import Ngcorion.Text

/-!
# Lexicographic order with padding

Two sequences are compared position by position, the shorter one continued by a
padding element, so that a sequence may come before its own beginning. Numerals
of any length are compared by their digits.
-/
namespace PaddedOrder

open Std Text

/-- The result of a comparison as a number. -/
def sign : Ordering → Int
  | .lt => -1
  | .eq => 0
  | .gt => 1

@[simp] theorem sign_swap (o : Ordering) : sign o.swap = - sign o := by cases o <;> rfl

theorem sign_nonpos (o : Ordering) : sign o ≤ 0 ↔ o.isLE = true := by cases o <;> decide

theorem sign_eq_zero (o : Ordering) : sign o = 0 ↔ o = .eq := by cases o <;> decide

section
variable {α : Type*} (cmp : α → α → Ordering) (pad : α)

/-- Compare position by position, the shorter sequence continued by `pad`. -/
def padLex : List α → List α → Ordering
  | [], [] => .eq
  | x :: xs, [] => (cmp x pad).then (padLex xs [])
  | [], y :: ys => (cmp pad y).then (padLex [] ys)
  | x :: xs, y :: ys => (cmp x y).then (padLex xs ys)

variable {cmp} {pad}

theorem padLex_step [ReflCmp cmp] (xs ys : List α) :
    padLex cmp pad xs ys = (cmp (xs.headD pad) (ys.headD pad)).then (padLex cmp pad xs.tail ys.tail) := by
  cases xs <;> cases ys <;> simp [padLex, ReflCmp.compare_self]

instance [ReflCmp cmp] : ReflCmp (padLex cmp pad) where
  compare_self {a} := by
    induction a with
    | nil => simp [padLex]
    | cons x xs ih => simp [padLex, ReflCmp.compare_self, ih]

instance [OrientedCmp cmp] : OrientedCmp (padLex cmp pad) where
  eq_swap {a b} := by
    fun_induction padLex cmp pad a b with
    | case1 => simp [padLex]
    | case2 x xs ih => rw [padLex, Ordering.swap_then, ih, @OrientedCmp.eq_swap _ cmp _ x pad]
    | case3 y ys ih => rw [padLex, Ordering.swap_then, ih, @OrientedCmp.eq_swap _ cmp _ pad y]
    | case4 x xs y ys ih => rw [padLex, Ordering.swap_then, ih, @OrientedCmp.eq_swap _ cmp _ x y]

theorem padLex_trans [TransCmp cmp] (n : Nat) (a b c : List α) (hn : a.length + b.length + c.length ≤ n)
    (hab : (padLex cmp pad a b).isLE = true) (hbc : (padLex cmp pad b c).isLE = true) :
    (padLex cmp pad a c).isLE = true := by
  induction n generalizing a b c with
  | zero =>
    have ha : a = [] := List.length_eq_zero_iff.mp (by omega)
    have hc : c = [] := List.length_eq_zero_iff.mp (by omega)
    simp [ha, hc, padLex]
  | succ n ih =>
    by_cases hnil : a.length + b.length + c.length = 0
    · exact ih a b c (by omega) hab hbc
    · have hlt : a.tail.length + b.tail.length + c.tail.length ≤ n := by
        simp only [List.length_tail]
        omega
      rw [padLex_step a b, Ordering.isLE_then_iff_and] at hab
      rw [padLex_step b c, Ordering.isLE_then_iff_and] at hbc
      rw [padLex_step a c, Ordering.isLE_then_iff_and]
      refine ⟨TransCmp.isLE_trans hab.1 hbc.1, ?_⟩
      rcases hab.2 with h | h
      · exact Or.inl (TransCmp.lt_of_lt_of_isLE h hbc.1)
      · rcases hbc.2 with h' | h'
        · exact Or.inl (TransCmp.lt_of_isLE_of_lt hab.1 h')
        · exact Or.inr (ih _ _ _ hlt h h')

instance [TransCmp cmp] : TransCmp (padLex cmp pad) where
  isLE_trans hab hbc := padLex_trans _ _ _ _ (Nat.le_refl _) hab hbc

theorem padLex_replicate [ReflCmp cmp] (n : Nat) (ys : List α) :
    padLex cmp pad (List.replicate n pad) ys = padLex cmp pad [] ys := by
  induction n generalizing ys with
  | zero => rfl
  | succ n ih => rw [padLex_step, List.replicate_succ, List.headD_cons, List.tail_cons, ih, padLex_step [] ys, List.headD_nil, List.tail_nil]

/-- A sequence may be continued by the padding. -/
theorem padLex_append_left [ReflCmp cmp] (xs ys : List α) (n : Nat) :
    padLex cmp pad (xs ++ List.replicate n pad) ys = padLex cmp pad xs ys := by
  induction xs generalizing ys with
  | nil => exact padLex_replicate n ys
  | cons x xs ih => rw [padLex_step, List.cons_append, List.headD_cons, List.tail_cons, ih, padLex_step (x :: xs), List.headD_cons, List.tail_cons]

theorem padLex_append_right [OrientedCmp cmp] (xs ys : List α) (n : Nat) :
    padLex cmp pad xs (ys ++ List.replicate n pad) = padLex cmp pad xs ys := by
  have hswap (a b : List α) : padLex cmp pad a b = (padLex cmp pad b a).swap := OrientedCmp.eq_swap
  rw [hswap, padLex_append_left, ← hswap]

/-- A lowest element that is repeated beyond the end of the other sequence puts the first one before it. -/
theorem padLex_replicate_lt {x : α} {ys : List α} {k : Nat} (hlen : ys.length < k) (hmin : ∀ y ∈ ys, (cmp x y).isLE = true)
    (hpad : cmp x pad = .lt) (xs : List α) : padLex cmp pad (List.replicate k x ++ xs) ys = .lt := by
  induction ys generalizing k with
  | nil =>
    obtain ⟨k, rfl⟩ := Nat.exists_eq_succ_of_ne_zero (Nat.ne_of_gt hlen)
    rw [List.replicate_succ, List.cons_append, padLex, hpad, Ordering.lt_then]
  | cons y ys ih =>
    obtain ⟨k, rfl⟩ := Nat.exists_eq_succ_of_ne_zero (Nat.ne_of_gt (Nat.zero_lt_of_lt hlen))
    have hrest := ih (Nat.lt_of_succ_lt_succ hlen) fun z hz => hmin z (List.mem_cons_of_mem _ hz)
    rw [List.replicate_succ, List.cons_append, padLex, hrest]
    have hhead := hmin y List.mem_cons_self
    cases hc : cmp x y with
    | lt => rfl
    | eq => rfl
    | gt =>
      rw [hc] at hhead
      cases hhead

theorem getD_zero_eq (xs : List α) : xs.getD 0 pad = xs.headD pad := by cases xs <;> rfl

theorem getD_succ_eq (xs : List α) (n : Nat) : xs.getD (n + 1) pad = xs.tail.getD n pad := by cases xs <;> rfl

theorem tails_length_lt {xs ys : List α} (h : ¬ (xs = [] ∧ ys = [])) :
    xs.tail.length + ys.tail.length < xs.length + ys.length := by
  rw [List.length_tail, List.length_tail]
  have hpos : 0 < xs.length + ys.length := by
    rw [Nat.pos_iff_ne_zero, Ne, Nat.add_eq_zero_iff, List.length_eq_zero_iff, List.length_eq_zero_iff]
    exact h
  omega

/-- Two sequences are equal when they are at each position. -/
theorem padLex_eq_iff [ReflCmp cmp] (xs ys : List α) :
    padLex cmp pad xs ys = .eq ↔ ∀ n, cmp (xs.getD n pad) (ys.getD n pad) = .eq := by
  induction h : xs.length + ys.length using Nat.strong_induction_on generalizing xs ys with
  | _ k ih =>
    by_cases hnil : xs = [] ∧ ys = []
    · obtain ⟨rfl, rfl⟩ := hnil
      simp [ReflCmp.compare_self]
    · have hlt := h ▸ tails_length_lt hnil
      rw [padLex_step, Ordering.then_eq_eq, ih _ hlt _ _ rfl]
      constructor
      · rintro ⟨hhead, htail⟩ n
        cases n with
        | zero => rwa [getD_zero_eq, getD_zero_eq]
        | succ n =>
          rw [getD_succ_eq, getD_succ_eq]
          exact htail n
      · intro hall
        refine ⟨?_, fun n => ?_⟩
        · have hzero := hall 0
          rwa [getD_zero_eq, getD_zero_eq] at hzero
        · have hsucc := hall (n + 1)
          rwa [getD_succ_eq, getD_succ_eq] at hsucc

/-- The first position that differs decides. -/
theorem padLex_lt_iff [ReflCmp cmp] (xs ys : List α) : padLex cmp pad xs ys = .lt ↔
    ∃ n, (∀ m < n, cmp (xs.getD m pad) (ys.getD m pad) = .eq) ∧ cmp (xs.getD n pad) (ys.getD n pad) = .lt := by
  induction h : xs.length + ys.length using Nat.strong_induction_on generalizing xs ys with
  | _ k ih =>
    by_cases hnil : xs = [] ∧ ys = []
    · obtain ⟨rfl, rfl⟩ := hnil
      simp [ReflCmp.compare_self]
    · have hlt := h ▸ tails_length_lt hnil
      rw [padLex_step, Ordering.then_eq_lt, ih _ hlt _ _ rfl]
      constructor
      · rintro (hhead | ⟨hhead, n, hbefore, hn⟩)
        · refine ⟨0, fun m hm => (Nat.not_lt_zero m hm).elim, ?_⟩
          rwa [getD_zero_eq, getD_zero_eq]
        · refine ⟨n + 1, fun m hm => ?_, ?_⟩
          · cases m with
            | zero => rwa [getD_zero_eq, getD_zero_eq]
            | succ m =>
              rw [getD_succ_eq, getD_succ_eq]
              exact hbefore m (Nat.lt_of_succ_lt_succ hm)
          · rwa [getD_succ_eq, getD_succ_eq]
      · rintro ⟨n, hbefore, hn⟩
        cases n with
        | zero => exact .inl (by rwa [getD_zero_eq, getD_zero_eq] at hn)
        | succ n =>
          refine .inr ⟨?_, n, fun m hm => ?_, ?_⟩
          · have hzero := hbefore 0 (Nat.succ_pos n)
            rwa [getD_zero_eq, getD_zero_eq] at hzero
          · have hsucc := hbefore (m + 1) (Nat.succ_lt_succ hm)
            rwa [getD_succ_eq, getD_succ_eq] at hsucc
          · rwa [getD_succ_eq, getD_succ_eq] at hn

end

/-- Compare what `f` gives. -/
def onto {α β : Type*} (f : α → β) (cmp : β → β → Ordering) (a b : α) : Ordering := cmp (f a) (f b)

instance {α β : Type*} {f : α → β} {cmp : β → β → Ordering} [OrientedCmp cmp] : OrientedCmp (onto f cmp) where
  eq_swap {a b} := @OrientedCmp.eq_swap _ cmp _ (f a) (f b)

instance {α β : Type*} {f : α → β} {cmp : β → β → Ordering} [TransCmp cmp] : TransCmp (onto f cmp) where
  isLE_trans {a b c} := @TransCmp.isLE_trans _ cmp _ (f a) (f b) (f c)

/-! ## Numerals -/

def digit (c : Char) : Nat := c.toNat - '0'.toNat

/-- The number that a text of decimal digits stands for; none for 0. -/
def value (s : Str) : Nat := s.foldl (fun n c => 10 * n + digit c) 0

theorem foldl_value (s : Str) (n : Nat) :
    s.foldl (fun n c => 10 * n + digit c) n = n * 10 ^ s.length + value s := by
  induction s generalizing n with
  | nil => simp [value]
  | cons c s ih =>
    have hv : value (c :: s) = digit c * 10 ^ s.length + value s := by
      rw [value, List.foldl_cons, ih]
      simp
    rw [List.foldl_cons, ih, hv, List.length_cons]
    ring

@[simp] theorem value_nil : value [] = 0 := rfl

theorem value_cons (c : Char) (s : Str) : value (c :: s) = digit c * 10 ^ s.length + value s := by
  rw [value, List.foldl_cons, foldl_value]
  simp

theorem digit_lt {c : Char} (h : c.isDigit = true) : digit c < 10 := by
  have hc := Char.isDigit_iff_toNat.mp h
  have h0 : '0'.toNat = 48 := rfl
  have h9 : '9'.toNat = 57 := rfl
  unfold digit
  omega

theorem value_lt (s : Str) (h : ∀ c ∈ s, c.isDigit = true) : value s < 10 ^ s.length := by
  induction s with
  | nil => simp
  | cons c s ih =>
    have hrest := ih (fun x hx => h x (by simp [hx]))
    have hc := digit_lt (h c (by simp))
    rw [value_cons, List.length_cons, pow_succ]
    calc digit c * 10 ^ s.length + value s < digit c * 10 ^ s.length + 10 ^ s.length := by omega
      _ = (digit c + 1) * 10 ^ s.length := by ring
      _ ≤ 10 * 10 ^ s.length := Nat.mul_le_mul_right _ (by omega)
      _ = 10 ^ s.length * 10 := by ring

theorem value_dropZeros (s : Str) : value (s.dropWhile (· = '0')) = value s := by
  induction s with
  | nil => rfl
  | cons c s ih =>
    by_cases hc : c = '0'
    · rw [List.dropWhile_cons_of_pos (by simpa using hc), ih, value_cons, hc]
      simp [digit]
    · rw [List.dropWhile_cons_of_neg (by simpa using hc)]

/-- More digits without a leading zero are a larger number. -/
theorem value_lt_of_length {a b : Str} (ha : ∀ c ∈ a, c.isDigit = true) (hb : ∀ c ∈ b, c.isDigit = true)
    (hzero : b.head? ≠ some '0') (h : a.length < b.length) : value a < value b := by
  cases b with
  | nil => simp at h
  | cons c b =>
    have hc := Char.isDigit_iff_toNat.mp (hb c (by simp))
    have hne : c.toNat ≠ '0'.toNat := by
      intro he
      apply hzero
      simp [Char.toNat_inj.mp he]
    have hpos : 1 ≤ digit c := by
      unfold digit
      omega
    have hpow : 10 ^ a.length ≤ 10 ^ b.length := Nat.pow_le_pow_right (by decide) (by simpa using Nat.lt_succ_iff.mp h)
    calc value a < 10 ^ a.length := value_lt a ha
      _ ≤ 1 * 10 ^ b.length := by omega
      _ ≤ digit c * 10 ^ b.length := Nat.mul_le_mul_right _ hpos
      _ ≤ value (c :: b) := by rw [value_cons]; omega

theorem compare_digit {x y : Char} (hx : x.isDigit = true) (hy : y.isDigit = true) :
    compare (digit x) (digit y) = compare x y := by
  have hx' := Char.isDigit_iff_toNat.mp hx
  have hy' := Char.isDigit_iff_toNat.mp hy
  have hlt : digit x < digit y ↔ x < y := by
    rw [Char.lt_def, UInt32.lt_iff_toNat_lt]
    unfold digit Char.toNat at *
    omega
  have heq : digit x = digit y ↔ x = y := by
    rw [← Char.toNat_inj]
    unfold digit
    omega
  simp only [compare, compareOfLessAndEq, hlt, heq]

theorem lead_lt {p q m v w : Nat} (hv : v < m) (h : p < q) : p * m + v < q * m + w :=
  calc p * m + v < p * m + m := by omega
    _ = (p + 1) * m := by ring
    _ ≤ q * m := Nat.mul_le_mul_right _ h
    _ ≤ q * m + w := by omega

theorem compare_lead {p q m v w : Nat} (hv : v < m) (hw : w < m) :
    compare (p * m + v) (q * m + w) = (compare p q).then (compare v w) := by
  rcases Nat.lt_trichotomy p q with h | h | h
  · rw [Nat.compare_eq_lt.mpr h, Nat.compare_eq_lt.mpr (lead_lt hv h)]
    rfl
  · subst h
    rw [Nat.compare_eq_eq.mpr rfl, Ordering.eq_then]
    simp only [compare, compareOfLessAndEq, Nat.add_lt_add_iff_left, Nat.add_left_cancel_iff]
  · rw [Nat.compare_eq_gt.mpr h, Nat.compare_eq_gt.mpr (lead_lt hw h)]
    rfl

/-- Numerals with equally many digits are in the order of their texts. -/
theorem compare_value {a b : Str} (ha : ∀ c ∈ a, c.isDigit = true) (hb : ∀ c ∈ b, c.isDigit = true)
    (h : a.length = b.length) : compare (value a) (value b) = compare a b := by
  induction a generalizing b with
  | nil =>
    have hb' : b = [] := List.length_eq_zero_iff.mp h.symm
    simp [hb']
  | cons x a ih =>
    cases b with
    | nil => simp at h
    | cons y b =>
      have hlen : a.length = b.length := by simpa using h
      have hrest := ih (fun c hc => ha c (by simp [hc])) (fun c hc => hb c (by simp [hc])) hlen
      have hva := value_lt a (fun c hc => ha c (by simp [hc]))
      have hvb := value_lt b (fun c hc => hb c (by simp [hc]))
      rw [List.compare_cons_cons, ← hrest, ← compare_digit (ha x (by simp)) (hb y (by simp)), value_cons, value_cons, hlen]
      exact compare_lead (hlen ▸ hva) hvb

end PaddedOrder
