import Ngcorion.Advisories.RpmVersions

/-!
# CPE version order

`compare` cuts two versions into runs of digits and letters and compares run by run, the shorter version continued by the
end of a version. The end counts as the number 0, and the order of the sequences that are continued for ever is the one
that `compare` gives.
-/
namespace CpeVersions

open Text PaddedOrder ParamSecurity DebVersions

section
variable (dg : UnicodeDigits) (lower : Str → Str)

/-! ## The code -/

def isDecimal (c : Char) : Bool := (dg.value c).isSome

def isLower (c : Char) : Bool := 'a' ≤ c && c ≤ 'z'

/-- `_TOKENS.findall` -/
def findall (s : Str) : List Str :=
  match s with
  | [] => []
  | c :: rest =>
    if isDecimal dg c then (c :: rest.takeWhile (isDecimal dg)) :: findall (rest.dropWhile (isDecimal dg))
    else if isLower c then (c :: rest.takeWhile isLower) :: findall (rest.dropWhile isLower)
    else findall rest
termination_by s.length
decreasing_by
  · exact Nat.lt_succ_of_le (List.dropWhile_suffix _).length_le
  · exact Nat.lt_succ_of_le (List.dropWhile_suffix _).length_le
  · exact Nat.lt_succ_self _

def _PRE_RELEASE : List Str := ["dev", "alpha", "beta", "pre", "preview", "rc"].map String.toList

/-- The pairs of a key; the end of a version is the pair that shorter keys are continued with. -/
inductive Element where
  | preRelease (tok : Str)
  | ending
  | number (n : Nat)
  | word (tok : Str)
  deriving DecidableEq

/-- `re.sub(r"^\d+:", "", v)` -/
def dropEpoch (v : Str) : Str :=
  let ds := v.takeWhile (isDecimal dg)
  if ds ≠ [] ∧ (v.drop ds.length).head? = some ':' then v.drop (ds.length + 1) else v

def element (tok : Str) : Except PyError Element :=
  if tok.all dg.isdigit then
    match natural dg.toDigits tok with
    | some n => .ok (.number n)
    | none => .error .valueError
  else if tok ∈ _PRE_RELEASE then .ok (.preRelease tok)
  else .ok (.word tok)

def _key (version : Str) : Except PyError (List Element) :=
  (findall dg (dropEpoch dg (lower (strip version)))).mapM (element dg)

def kind : Element → Nat
  | .preRelease _ => 0
  | .ending => 1
  | .number _ => 2
  | .word _ => 3

/-- `x < y` of two pairs -/
def pairLt (x y : Element) : Bool :=
  match x, y with
  | .preRelease s, .preRelease t | .word s, .word t => (Ord.compare s t).isLT
  | .number m, .number n => m < n
  | x, y => kind x < kind y

def loop : List Element → List Element → Int
  | x :: xs, y :: ys =>
    if x = .ending ∧ y = .number 0 ∨ x = .number 0 ∧ y = .ending then loop xs ys
    else if x ≠ y then if pairLt x y then -1 else 1
    else loop xs ys
  | _, _ => 0

def compare (a b : Str) : Except PyError Int := do
  let ka ← _key dg lower a
  let kb ← _key dg lower b
  let n := max ka.length kb.length
  return loop (ka ++ List.replicate (n - ka.length) Element.ending) (kb ++ List.replicate (n - kb.length) Element.ending)

def is_known : Option Str → Bool
  | none => false
  | some v => v ≠ [] && v ≠ ['*'] && v ≠ ['-'] && (lower v).any fun c => isDecimal dg c || isLower c

/-- A criterion of CPE: an exact version, or the ends of a range -/
structure Criterion where
  exact : Option Str
  start_incl : Option Str
  start_excl : Option Str
  end_incl : Option Str
  end_excl : Option Str

/-- A given end of a range that the version does not meet -/
def fails (version : Str) (given : Option Str) (bad : Int → Bool) : Except PyError Bool :=
  match given with
  | none | some [] => .ok false
  | some limit => (compare dg lower version limit).map bad

/-- The range of a criterion, for a version that is known -/
def inRange (version : Str) (c : Criterion) : Except PyError Bool := do
  if ← fails dg lower version c.start_incl fun x => x < 0 then return false
  if ← fails dg lower version c.start_excl fun x => x ≤ 0 then return false
  if ← fails dg lower version c.end_incl fun x => 0 < x then return false
  if ← fails dg lower version c.end_excl fun x => 0 ≤ x then return false
  return true

def set (given : Option Str) : Bool := given.any fun v => v ≠ []

def matches_ (version : Option Str) (c : Criterion) : Except PyError Bool :=
  if is_known dg lower c.exact then
    match version, c.exact with
    | some version, some exact =>
      if is_known dg lower version then (compare dg lower version exact).map fun x => x = 0 else .ok false
    | _, _ => .ok false
  else if !(set c.start_incl || set c.start_excl || set c.end_incl || set c.end_excl) then .ok true
  else
    match version with
    | none => .ok false
    | some version => if is_known dg lower version then inRange dg lower version c else .ok false

/-! ## The order -/

/-- The places of the pairs: the end of a version is the number 0. -/
def rank : Element → Nat
  | .preRelease _ => 0
  | .ending | .number 0 => 1
  | .number _ => 2
  | .word _ => 3

@[simp] theorem rank_preRelease (tok : Str) : rank (.preRelease tok) = 0 := rfl
@[simp] theorem rank_ending : rank .ending = 1 := rfl
@[simp] theorem rank_zero : rank (.number 0) = 1 := rfl
@[simp] theorem rank_succ (n : Nat) : rank (.number (n + 1)) = 2 := rfl
@[simp] theorem rank_word (tok : Str) : rank (.word tok) = 3 := rfl

def textOf : Element → Str
  | .preRelease tok | .word tok => tok
  | _ => []

def numberOf : Element → Nat
  | .number n => n
  | _ => 0

/-- Pre-release words < the end = 0 < the other numbers < other words, words by their text and numbers by their value -/
def compareElement : Element → Element → Ordering :=
  compareLex (compareOn rank) (compareLex (compareOn textOf) (compareOn numberOf))

instance : Std.TransCmp compareElement := by unfold compareElement; infer_instance

/-- A key that is continued by the end of the version for ever -/
def sequence (key : List Element) (n : Nat) : Element := key.getD n .ending

/-- The first of the positions that differ decides. -/
def Before (f g : Nat → Element) : Prop := ∃ n, (∀ m < n, compareElement (f m) (g m) = .eq) ∧ compareElement (f n) (g n) = .lt

def Same (f g : Nat → Element) : Prop := ∀ n, compareElement (f n) (g n) = .eq

/-- No run of digits is longer than `int` reads. -/
def Fits (v : Str) : Prop :=
  ∀ tok ∈ findall dg (dropEpoch dg (lower (strip v))), tok.all dg.isdigit = true → tok.length ≤ 4300

end

/-! ## The loop -/

theorem merged_eq {x y : Element} (h : x = .ending ∧ y = .number 0 ∨ x = .number 0 ∧ y = .ending) :
    compareElement x y = .eq := by
  obtain ⟨rfl, rfl⟩ | ⟨rfl, rfl⟩ := h <;> decide

theorem compareElement_of_rank {x y : Element} (h : rank x < rank y) : compareElement x y = .lt := by
  simp [compareElement, compareLex, compareOn, Nat.compare_eq_lt.mpr h]

theorem compareElement_swap (x y : Element) : compareElement x y = (compareElement y x).swap := Std.OrientedCmp.eq_swap

theorem compareElement_numbers (m n : Nat) : compareElement (.number m) (.number n) = Ord.compare m n := by
  cases m with
  | zero =>
    cases n with
    | zero => rfl
    | succ n =>
      have hrank : rank (.number 0) < rank (.number (n + 1)) := Nat.one_lt_two
      rw [compareElement_of_rank hrank, Nat.compare_eq_lt.mpr (Nat.succ_pos n)]
  | succ m =>
    cases n with
    | zero =>
      have hrank : rank (.number 0) < rank (.number (m + 1)) := Nat.one_lt_two
      rw [compareElement_swap, compareElement_of_rank hrank, Nat.compare_eq_gt.mpr (Nat.succ_pos m)]
      rfl
    | succ n => rfl

theorem compareElement_preReleases (s t : Str) : compareElement (.preRelease s) (.preRelease t) = Ord.compare s t := by
  simp [compareElement, compareLex, compareOn, textOf, numberOf]

theorem compareElement_words (s t : Str) : compareElement (.word s) (.word t) = Ord.compare s t := by
  simp [compareElement, compareLex, compareOn, textOf, numberOf]

theorem compare_texts {s t : Str} (hne : s ≠ t) : Ord.compare s t = if (Ord.compare s t).isLT then .lt else .gt := by
  have heq : Ord.compare s t ≠ .eq := fun h => hne (Std.LawfulEqCmp.compare_eq_iff_eq.mp h)
  cases h : Ord.compare s t with
  | lt => rfl
  | eq => exact (heq h).elim
  | gt => rfl

theorem rank_of_kind {x y : Element} (hmerged : ¬ (x = .ending ∧ y = .number 0)) (h : kind x < kind y) : rank x < rank y := by
  cases x with
  | number m => cases m <;> cases y <;> simp_all [kind]
  | _ =>
    cases y with
    | number n => cases n <;> simp_all [kind]
    | _ => simp_all [kind]

theorem pairLt_of_kind {x y : Element} (h : kind x ≠ kind y) : pairLt x y = decide (kind x < kind y) := by
  cases x <;> cases y <;> first | rfl | exact (h rfl).elim

/-- Where the loop does not go on, the pair decides as the order does. -/
theorem compareElement_pair {x y : Element} (hmerged : ¬ (x = .ending ∧ y = .number 0 ∨ x = .number 0 ∧ y = .ending))
    (hne : x ≠ y) : compareElement x y = if pairLt x y then .lt else .gt := by
  obtain ⟨hxy, hyx⟩ := not_or.mp hmerged
  obtain hlt | heq | hgt := Nat.lt_trichotomy (kind x) (kind y)
  · rw [compareElement_of_rank (rank_of_kind hxy hlt), pairLt_of_kind hlt.ne, if_pos (decide_eq_true hlt)]
  · cases x with
    | preRelease s =>
      cases y with
      | preRelease t => exact (compareElement_preReleases s t).trans (compare_texts fun h => hne (congrArg _ h))
      | _ => cases heq
    | ending =>
      cases y with
      | ending => exact (hne rfl).elim
      | _ => cases heq
    | number m =>
      cases y with
      | number n =>
        rw [compareElement_numbers, pairLt]
        obtain hlt | rfl | hgt := Nat.lt_trichotomy m n
        · rw [Nat.compare_eq_lt.mpr hlt, if_pos (decide_eq_true hlt)]
        · exact (hne rfl).elim
        · rw [Nat.compare_eq_gt.mpr hgt, if_neg fun h => Nat.lt_asymm hgt (of_decide_eq_true h)]
      | _ => cases heq
    | word s =>
      cases y with
      | word t => exact (compareElement_words s t).trans (compare_texts fun h => hne (congrArg _ h))
      | _ => cases heq
  · rw [compareElement_swap, compareElement_of_rank (rank_of_kind (fun h => hyx h.symm) hgt), pairLt_of_kind hgt.ne',
      if_neg fun h => Nat.lt_asymm hgt (of_decide_eq_true h)]
    rfl

theorem loop_eq {xs ys : List Element} (h : xs.length = ys.length) : loop xs ys = sign (padLex compareElement .ending xs ys) := by
  induction xs generalizing ys with
  | nil =>
    cases List.length_eq_zero_iff.mp h.symm
    simp [loop, padLex, sign]
  | cons x xs ih =>
    cases ys with
    | nil => cases h
    | cons y ys =>
      have htail := ih (Nat.succ_inj.mp h)
      rw [loop, padLex]
      split
      · next hmerged => rw [htail, merged_eq hmerged, Ordering.eq_then]
      · next hmerged =>
        split
        · next hne =>
          rw [compareElement_pair hmerged hne]
          split <;> rfl
        · next heq =>
          have hself : compareElement y y = .eq := Std.ReflCmp.compare_self
          rw [not_not.mp heq, hself, Ordering.eq_then, htail]

/-! ## The comparison -/

section
variable {dg : UnicodeDigits} {lower : Str → Str} {a b c : Str} {ka kb : List Element}

theorem compare_eq (ha : _key dg lower a = .ok ka) (hb : _key dg lower b = .ok kb) :
    compare dg lower a b = .ok (sign (padLex compareElement .ending ka kb)) := by
  rw [compare, ha, hb]
  simp only [bind, Except.bind, pure, Except.pure]
  have hlength : (ka ++ List.replicate (max ka.length kb.length - ka.length) Element.ending).length =
      (kb ++ List.replicate (max ka.length kb.length - kb.length) Element.ending).length := by
    rw [List.length_append, List.length_append, List.length_replicate, List.length_replicate]
    omega
  rw [loop_eq hlength, padLex_append_left, padLex_append_right]

/-- What is compared has keys. -/
theorem compare_ok {x : Int} (h : compare dg lower a b = .ok x) : ∃ ka kb, _key dg lower a = .ok ka ∧
    _key dg lower b = .ok kb ∧ x = sign (padLex compareElement .ending ka kb) := by
  cases ha : _key dg lower a with
  | error e =>
    rw [compare, ha] at h
    cases h
  | ok ka =>
    cases hb : _key dg lower b with
    | error e =>
      rw [compare, ha, hb] at h
      cases h
    | ok kb =>
      rw [compare_eq ha hb] at h
      cases h
      exact ⟨ka, kb, rfl, rfl, rfl⟩

theorem compare_swap {x : Int} (h : compare dg lower a b = .ok x) : compare dg lower b a = .ok (-x) := by
  obtain ⟨ka, kb, ha, hb, rfl⟩ := compare_ok h
  rw [compare_eq hb ha, @Std.OrientedCmp.eq_swap _ (padLex compareElement .ending) _ kb ka, sign_swap]

theorem compare_trans {x y : Int} (hab : compare dg lower a b = .ok x) (hbc : compare dg lower b c = .ok y) (hx : x ≤ 0)
    (hy : y ≤ 0) : ∃ z, compare dg lower a c = .ok z ∧ z ≤ 0 := by
  obtain ⟨ka, kb, ha, hb, rfl⟩ := compare_ok hab
  obtain ⟨kb', kc, hb', hc, rfl⟩ := compare_ok hbc
  cases hb.symm.trans hb'
  refine ⟨_, compare_eq ha hc, (sign_nonpos _).mpr ?_⟩
  exact Std.TransCmp.isLE_trans ((sign_nonpos _).mp hx) ((sign_nonpos _).mp hy)

/-- A token has only digits or only letters. -/
theorem mem_findall {tok s : Str} (h : tok ∈ findall dg s) :
    tok ≠ [] ∧ ((∀ c ∈ tok, isDecimal dg c = true) ∨ ∀ c ∈ tok, isLower c = true) := by
  fun_induction findall dg s with
  | case1 => cases h
  | case2 c rest hc ih =>
    cases List.mem_cons.mp h with
    | inl hhere =>
      refine hhere ▸ ⟨List.cons_ne_nil _ _, .inl fun x hx => ?_⟩
      cases List.mem_cons.mp hx with
      | inl heq => exact heq ▸ hc
      | inr hmem => exact List.mem_takeWhile_imp hmem
    | inr hrest => exact ih hrest
  | case3 c rest _ hc ih =>
    cases List.mem_cons.mp h with
    | inl hhere =>
      refine hhere ▸ ⟨List.cons_ne_nil _ _, .inr fun x hx => ?_⟩
      cases List.mem_cons.mp hx with
      | inl heq => exact heq ▸ hc
      | inr hmem => exact List.mem_takeWhile_imp hmem
    | inr hrest => exact ih hrest
  | case4 c rest _ _ ih => exact ih h

theorem natural_decimals {tok : Str} (hne : tok ≠ []) (h : ∀ c ∈ tok, isDecimal dg c = true) (hlen : tok.length ≤ 4300) :
    ∃ n, natural dg.toDigits tok = some n := by
  obtain ⟨ds, hds, hlength⟩ := RpmVersions.digitsFrom_values dg h
  have hhead : tok.head? ≠ some '_' := by
    intro hh
    have hdecimal := h '_' (List.mem_of_mem_head? hh)
    rw [isDecimal, dg.value_ascii '_' (by decide)] at hdecimal
    exact absurd hdecimal (by decide)
  refine ⟨ds.foldl (fun n d => 10 * n + d) 0, ?_⟩
  rw [natural, if_neg (by simp [hne, hhead]), hds]
  exact if_pos (hlength ▸ hlen)

theorem not_isdigit_of_isLower {c : Char} (h : isLower c = true) : dg.isdigit c = false := by
  rw [isLower, Bool.and_eq_true, decide_eq_true_eq, decide_eq_true_eq] at h
  have hlow : 'a'.toNat ≤ c.toNat := h.1
  have hhigh : c.toNat ≤ 'z'.toNat := h.2
  have hz : 'z'.toNat < 128 := by decide
  rw [dg.isdigit_ascii c (hhigh.trans_lt hz)]
  have hnine : '9'.toNat < 'a'.toNat := by decide
  refine Bool.eq_false_iff.mpr fun hdigit => ?_
  have hle : c.toNat ≤ '9'.toNat := (Char.isDigit_iff_toNat.mp hdigit).2
  exact Nat.not_le.mpr hnine (hlow.trans hle)

theorem mapM_all_ok {α β ε : Type} {f : α → Except ε β} {l : List α} (h : ∀ a ∈ l, ∃ b, f a = .ok b) :
    ∃ bs, l.mapM f = .ok bs := by
  induction l with
  | nil => exact ⟨[], rfl⟩
  | cons a l ih =>
    obtain ⟨b, hb⟩ := h a List.mem_cons_self
    obtain ⟨bs, hbs⟩ := ih fun x hx => h x (List.mem_cons_of_mem _ hx)
    refine ⟨b :: bs, ?_⟩
    rw [List.mapM_cons, hb, hbs]
    rfl

/-- A version has a key when `int` reads each of its numbers. -/
theorem key_ok {v : Str} (h : Fits dg lower v) : ∃ key, _key dg lower v = .ok key := by
  refine mapM_all_ok fun tok htok => ?_
  obtain ⟨hne, hchars⟩ := mem_findall htok
  unfold element
  split
  · next hdigits =>
    have hdecimal : ∀ c ∈ tok, isDecimal dg c = true := by
      refine hchars.resolve_right fun hlower => ?_
      obtain ⟨c, hc⟩ := List.exists_mem_of_ne_nil tok hne
      have hdigit := List.all_eq_true.mp hdigits c hc
      rw [not_isdigit_of_isLower (hlower c hc)] at hdigit
      cases hdigit
    obtain ⟨n, hn⟩ := natural_decimals hne hdecimal (h tok htok hdigits)
    rw [hn]
    exact ⟨_, rfl⟩
  · split
    · exact ⟨_, rfl⟩
    · exact ⟨_, rfl⟩

theorem compare_lt {x y : Int} (hab : compare dg lower a b = .ok x) (hbc : compare dg lower b c = .ok y) (hx : x ≤ 0)
    (hy : y ≤ 0) (hlt : x < 0 ∨ y < 0) : ∃ z, compare dg lower a c = .ok z ∧ z < 0 := by
  obtain ⟨z, hac, hz⟩ := compare_trans hab hbc hx hy
  refine ⟨z, hac, lt_of_le_of_ne hz fun hzero => ?_⟩
  -- a and c are equal, so that going back from c is no step up
  have hca := compare_swap hac
  rw [hzero] at hca
  obtain ⟨x', hcb, hx'⟩ := compare_trans hca hab (le_refl _) hx
  obtain ⟨y', hba, hy'⟩ := compare_trans hbc hca hy (le_refl _)
  have hxs := (compare_swap hcb).symm.trans hbc
  have hys := (compare_swap hba).symm.trans hab
  rw [Except.ok.injEq] at hxs hys
  omega

/-- Equal versions compare alike. -/
theorem compare_congr (h : compare dg lower a b = .ok 0) : compare dg lower a c = compare dg lower b c := by
  obtain ⟨ka, kb, ha, hb, hsign⟩ := compare_ok h
  have heq : padLex compareElement .ending ka kb = .eq := (sign_eq_zero _).mp hsign.symm
  cases hc : _key dg lower c with
  | error e =>
    rw [compare, compare, ha, hb, hc]
    rfl
  | ok kc => rw [compare_eq ha hc, compare_eq hb hc, Std.TransCmp.congr_left heq]

/-! ## Criteria -/

variable {v w : Str} {criterion : Criterion} {given : Option Str} {bad : Int → Bool} {x : Int}

theorem fails_congr (h : compare dg lower v w = .ok 0) (given : Option Str) (bad : Int → Bool) :
    fails dg lower v given bad = fails dg lower w given bad := by
  unfold fails
  split
  · rfl
  · rfl
  · rw [compare_congr h]

theorem inRange_congr (h : compare dg lower v w = .ok 0) (criterion : Criterion) :
    inRange dg lower v criterion = inRange dg lower w criterion := by
  simp only [inRange, fails_congr h]

/-- Versions that are equal and known are in the same criteria. -/
theorem matches_congr (h : compare dg lower v w = .ok 0) (hv : is_known dg lower v = true) (hw : is_known dg lower w = true)
    (criterion : Criterion) : matches_ dg lower v criterion = matches_ dg lower w criterion := by
  unfold matches_
  split
  · cases criterion.exact with
    | none => rfl
    | some exact =>
      dsimp only
      rw [if_pos hv, if_pos hw, compare_congr h]
  · dsimp only
    rw [if_pos hv, if_pos hw, inRange_congr h]

theorem inRange_iff : inRange dg lower v criterion = .ok true ↔
    fails dg lower v criterion.start_incl (fun x => x < 0) = .ok false ∧
    fails dg lower v criterion.start_excl (fun x => x ≤ 0) = .ok false ∧
    fails dg lower v criterion.end_incl (fun x => 0 < x) = .ok false ∧
    fails dg lower v criterion.end_excl (fun x => 0 ≤ x) = .ok false := by
  have hstep (check : Except PyError Bool) (rest : Except PyError Bool) :
      (check >>= fun bad => if bad = true then pure false else rest) = .ok true ↔ check = .ok false ∧ rest = .ok true := by
    cases check with
    | error e => exact ⟨fun h => (by cases h), fun h => (by cases h.1)⟩
    | ok bad =>
      cases bad with
      | true => exact ⟨fun h => (by cases h), fun h => (by cases h.1)⟩
      | false => exact ⟨fun h => ⟨rfl, h⟩, fun h => h.2⟩
  unfold inRange
  rw [hstep, hstep, hstep, hstep]
  exact and_congr_right fun _ => and_congr_right fun _ => and_congr_right fun _ => and_iff_left rfl

theorem compare_common {l : Str} {y : Int} (hvw : compare dg lower v w = .ok x) (hvl : compare dg lower v l = .ok y) :
    ∃ z, compare dg lower w l = .ok z ∧ (x ≤ 0 → (0 ≤ y → 0 ≤ z) ∧ (0 < y → 0 < z)) ∧
      (0 ≤ x → (y ≤ 0 → z ≤ 0) ∧ (y < 0 → z < 0)) := by
  obtain ⟨kv, kw, -, hw, -⟩ := compare_ok hvw
  obtain ⟨-, kl, -, hl, -⟩ := compare_ok hvl
  have hlv := compare_swap hvl
  have hwv := compare_swap hvw
  have hwl := compare_eq hw hl
  refine ⟨_, hwl, fun hx => ⟨fun hy => ?_, fun hy => ?_⟩, fun hx => ⟨fun hy => ?_, fun hy => ?_⟩⟩
  · obtain ⟨z, hlw, hz⟩ := compare_trans hlv hvw (Int.neg_nonpos_of_nonneg hy) hx
    have heq := (compare_swap hlw).symm.trans hwl
    rw [Except.ok.injEq] at heq
    omega
  · obtain ⟨z, hlw, hz⟩ := compare_lt hlv hvw (Int.neg_nonpos_of_nonneg hy.le) hx (.inl (Int.neg_neg_of_pos hy))
    have heq := (compare_swap hlw).symm.trans hwl
    rw [Except.ok.injEq] at heq
    omega
  · obtain ⟨z, hz, hle⟩ := compare_trans hwv hvl (Int.neg_nonpos_of_nonneg hx) hy
    cases hwl.symm.trans hz
    exact hle
  · obtain ⟨z, hz, hlt⟩ := compare_lt hwv hvl (Int.neg_nonpos_of_nonneg hx) hy.le (.inr hy)
    cases hwl.symm.trans hz
    exact hlt

/-- A check that holds below holds above, where it asks for a limit below. -/
theorem fails_up (hvw : compare dg lower v w = .ok x) (hx : x ≤ 0) (h : fails dg lower v given bad = .ok false)
    (hbad : ∀ y z : Int, (0 ≤ y → 0 ≤ z) → (0 < y → 0 < z) → bad y = false → bad z = false) :
    fails dg lower w given bad = .ok false := by
  unfold fails at h ⊢
  split at h
  · exact h
  · exact h
  · next limit _ =>
    cases hvl : compare dg lower v limit with
    | error e =>
      rw [hvl] at h
      cases h
    | ok y =>
      rw [hvl, Except.map, Except.ok.injEq] at h
      obtain ⟨z, hwl, hz⟩ := compare_common hvw hvl
      rw [hwl, Except.map, hbad y z (hz.1 hx).1 (hz.1 hx).2 h]

/-- A check that holds above holds below, where it asks for a limit above. -/
theorem fails_down (hvw : compare dg lower v w = .ok x) (hx : x ≤ 0) (h : fails dg lower w given bad = .ok false)
    (hbad : ∀ y z : Int, (y ≤ 0 → z ≤ 0) → (y < 0 → z < 0) → bad y = false → bad z = false) :
    fails dg lower v given bad = .ok false := by
  unfold fails at h ⊢
  split at h
  · exact h
  · exact h
  · next limit _ =>
    cases hwl : compare dg lower w limit with
    | error e =>
      rw [hwl] at h
      cases h
    | ok y =>
      rw [hwl, Except.map, Except.ok.injEq] at h
      obtain ⟨z, hvl, hz⟩ := compare_common (compare_swap hvw) hwl
      have hx' : 0 ≤ -x := Int.neg_nonneg_of_nonpos hx
      rw [hvl, Except.map, hbad y z (hz.2 hx').1 (hz.2 hx').2 h]

/-- Between two versions of a range are only versions of the range. -/
theorem matches_convex {low high : Str} {x y : Int} (hexact : is_known dg lower criterion.exact = false)
    (hv : is_known dg lower v = true) (hlow : is_known dg lower low = true) (hhigh : is_known dg lower high = true)
    (hx : compare dg lower low v = .ok x) (hy : compare dg lower v high = .ok y) (hx0 : x ≤ 0) (hy0 : y ≤ 0)
    (hinlow : matches_ dg lower low criterion = .ok true) (hinhigh : matches_ dg lower high criterion = .ok true) :
    matches_ dg lower v criterion = .ok true := by
  unfold matches_ at hinlow hinhigh ⊢
  rw [if_neg (Bool.eq_false_iff.mp hexact)] at hinlow hinhigh ⊢
  split
  · rfl
  · next hset =>
    rw [if_neg hset] at hinlow hinhigh
    dsimp only at hinlow hinhigh ⊢
    rw [if_pos hlow, inRange_iff] at hinlow
    rw [if_pos hhigh, inRange_iff] at hinhigh
    rw [if_pos hv, inRange_iff]
    refine ⟨fails_up hx hx0 hinlow.1 ?_, fails_up hx hx0 hinlow.2.1 ?_, fails_down hy hy0 hinhigh.2.2.1 ?_,
      fails_down hy hy0 hinhigh.2.2.2 ?_⟩
    all_goals
      intro y z hle hlt hbad
      rw [decide_eq_false_iff_not] at hbad ⊢
      omega

end

/-- `compare` is the order of the sequences that the keys begin, and criteria respect it. -/
structure Lawful (dg : UnicodeDigits) (lower : Str → Str) : Prop where
  total : ∀ a b, Fits dg lower a → Fits dg lower b → ∃ x, compare dg lower a b = .ok x
  swapped : ∀ a b x, compare dg lower a b = .ok x → compare dg lower b a = .ok (-x)
  transitive : ∀ a b c x y, compare dg lower a b = .ok x → compare dg lower b c = .ok y → x ≤ 0 → y ≤ 0 →
    ∃ z, compare dg lower a c = .ok z ∧ z ≤ 0
  sequences : ∀ a b x, compare dg lower a b = .ok x → ∃ ka kb, _key dg lower a = .ok ka ∧ _key dg lower b = .ok kb ∧
    (x = -1 ∨ x = 0 ∨ x = 1) ∧ (x = -1 ↔ Before (sequence ka) (sequence kb)) ∧ (x = 0 ↔ Same (sequence ka) (sequence kb)) ∧
    (x = 1 ↔ Before (sequence kb) (sequence ka))
  respected : ∀ (v w : Str) criterion, compare dg lower v w = .ok 0 → is_known dg lower v = true → is_known dg lower w = true →
    matches_ dg lower v criterion = matches_ dg lower w criterion
  convex : ∀ (low v high : Str) x y criterion, is_known dg lower criterion.exact = false → is_known dg lower low = true →
    is_known dg lower v = true → is_known dg lower high = true → compare dg lower low v = .ok x →
    compare dg lower v high = .ok y → x ≤ 0 → y ≤ 0 → matches_ dg lower low criterion = .ok true →
    matches_ dg lower high criterion = .ok true → matches_ dg lower v criterion = .ok true

theorem sign_values (o : Ordering) : (sign o = -1 ∨ sign o = 0 ∨ sign o = 1) ∧ (sign o = -1 ↔ o = .lt) ∧
    (sign o = 1 ↔ o.swap = .lt) := by cases o <;> decide

theorem cpe_version_order (dg : UnicodeDigits) (lower : Str → Str) : Lawful dg lower where
  total a b ha hb := by
    obtain ⟨ka, hka⟩ := key_ok ha
    obtain ⟨kb, hkb⟩ := key_ok hb
    exact ⟨_, compare_eq hka hkb⟩
  swapped a b x h := compare_swap h
  transitive a b c x y hab hbc hx hy := compare_trans hab hbc hx hy
  sequences a b x h := by
    obtain ⟨ka, kb, ha, hb, rfl⟩ := compare_ok h
    obtain ⟨hvalues, hlt, hgt⟩ := sign_values (padLex compareElement .ending ka kb)
    refine ⟨ka, kb, ha, hb, hvalues, ?_, ?_, ?_⟩
    · rw [hlt, padLex_lt_iff]
      rfl
    · rw [sign_eq_zero, padLex_eq_iff]
      rfl
    · rw [hgt, ← Std.OrientedCmp.eq_swap, padLex_lt_iff]
      rfl
  respected v w criterion h hv hw := matches_congr h hv hw criterion
  convex _ _ _ _ _ _ hexact hlow hv hhigh hx hy hx0 hy0 hinlow hinhigh :=
    matches_convex hexact hv hlow hhigh hx hy hx0 hy0 hinlow hinhigh

/-! ## Long numbers -/

/-- `int` does not read the number. -/
theorem key_long {e : Str} (h : ∀ c ∈ e, c.isDigit = true) (hlen : 4300 < e.length) :
    _key asciiOnly id e = .error .valueError := by
  have hdecimal : ∀ c ∈ e, isDecimal asciiOnly c = true := by
    intro c hc
    have hvalue : asciiOnly.value c = some (c.toNat - '0'.toNat) := if_pos (h c hc)
    rw [isDecimal, hvalue]
    rfl
  have hne : e ≠ [] := List.ne_nil_of_length_pos (Nat.zero_lt_of_lt hlen)
  have hepoch : dropEpoch asciiOnly e = e := by
    rw [dropEpoch, List.takeWhile_eq_self_iff.mpr hdecimal, List.drop_length]
    exact if_neg fun hc => by cases hc.2
  have htokens : findall asciiOnly e = [e] := by
    cases e with
    | nil => exact (hne rfl).elim
    | cons c e =>
      have hrest : ∀ x ∈ e, isDecimal asciiOnly x = true := fun x hx => hdecimal x (List.mem_cons_of_mem _ hx)
      rw [findall, if_pos (hdecimal c List.mem_cons_self), List.takeWhile_eq_self_iff.mpr hrest,
        List.dropWhile_eq_nil_iff.mpr hrest, findall]
  have hnatural : natural asciiDigits e = none := by
    obtain ⟨ds, hds, hlength⟩ := RpmVersions.digitsFrom_values asciiOnly hdecimal
    rw [natural, show digitsFrom asciiDigits e = some ds from hds]
    split
    · rfl
    · exact if_neg (Nat.not_le.mpr (hlength ▸ hlen))
  have hdigits : e.all asciiOnly.isdigit = true := List.all_eq_true.mpr h
  rw [_key, strip_digits h, id, hepoch, htokens, List.mapM_cons, element, if_pos hdigits,
    show natural asciiOnly.toDigits e = none from hnatural]
  rfl

/-- A version with a number of 4301 digits is not compared. -/
theorem long_version_raises : compare asciiOnly id (List.replicate 4301 '1') ['1'] = .error .valueError := by
  have hdigits : ∀ c ∈ List.replicate 4301 '1', c.isDigit = true := by
    intro c hc
    rw [List.eq_of_mem_replicate hc]
    decide
  have hlen : 4300 < (List.replicate 4301 '1').length := by
    rw [List.length_replicate]
    decide
  rw [compare, key_long hdigits hlen]
  rfl

end CpeVersions
