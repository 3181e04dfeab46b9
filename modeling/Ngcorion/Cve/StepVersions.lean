import Ngcorion.Cve.UpgradeSteps
import Ngcorion.Refusal

/-!
# Versions of two orders

The order of CPE versions and those of packages read a text in different ways: a text may be as late as one likes in one
of them and as early as one likes in the other.
-/
namespace StepVersions

open Text PaddedOrder ParamSecurity DebVersions KeyOrder PackageVersions Recommend UpgradeSteps
open OsvRecords (Family)

/-! ## The texts -/

/-- The words that come first among CPE versions -/
def alphas (k : Nat) : Str := (List.replicate k (lit "alpha.")).flatten

@[irreducible] def bigEpoch : Str := '1' :: List.replicate 4299 '0'

@[irreducible] def lateEpoch : Nat := value bigEpoch

/-- Late among packages, early among CPE versions -/
def latePackage (k : Nat) : Str := bigEpoch ++ ':' :: alphas k

/-- Early among packages, late among CPE versions -/
def earlyPackage (k n : Nat) : Str := List.replicate k '~' ++ List.replicate n 'z'

theorem bigEpoch_digits : ∀ c ∈ bigEpoch, c.isDigit = true := by
  intro c hc
  rw [bigEpoch] at hc
  rcases List.mem_cons.mp hc with rfl | hc
  · decide
  · rw [List.eq_of_mem_replicate hc]
    decide

theorem bigEpoch_ne_nil : bigEpoch ≠ [] := by
  rw [bigEpoch]
  exact List.cons_ne_nil _ _

theorem mem_alphas {k : Nat} {c : Char} (h : c ∈ alphas k) : c ∈ lit "alpha." := by
  obtain ⟨word, hword, hc⟩ := List.mem_flatten.mp h
  rwa [List.eq_of_mem_replicate hword] at hc

theorem alphas_succ (k : Nat) : alphas (k + 1) = lit "alpha." ++ alphas k := by
  rw [alphas, List.replicate_succ, List.flatten_cons, alphas]

/-- The characters of the texts, which `lower` and `strip` leave as they are -/
def Plain (c : Char) : Prop := c.toNat < 128 ∧ c.isUpper = false ∧ isSpace c = false

theorem plain_of_digit {c : Char} (h : c.isDigit = true) : Plain c := by
  refine ⟨isDigit_ascii h, ?_, not_isSpace_of_isDigit h⟩
  have hle : c.toNat ≤ '9'.toNat := (Char.isDigit_iff_toNat.mp h).2
  simp only [isUpper_eq, decide_eq_false_iff_not, UInt32.le_iff_toNat_le]
  intro hupper
  have hA : (65 : UInt32).toNat ≤ c.toNat := hupper.1
  exact absurd (hA.trans hle) (by decide)

theorem plain_late (k : Nat) : ∀ c ∈ latePackage k, Plain c := by
  intro c hc
  rcases List.mem_append.mp hc with hc | hc
  · exact plain_of_digit (bigEpoch_digits c hc)
  · rcases List.mem_cons.mp hc with rfl | hc
    · exact ⟨by decide, by decide, by decide⟩
    · have hall : ∀ c ∈ lit "alpha.", c.toNat < 128 ∧ c.isUpper = false ∧ isSpace c = false :=
        forall_mem_of_all (by with_unfolding_all decide)
      exact hall c (mem_alphas hc)

theorem plain_early (k n : Nat) : ∀ c ∈ earlyPackage k n, Plain c := by
  intro c hc
  rcases List.mem_append.mp hc with hc | hc
  · rw [List.eq_of_mem_replicate hc]
    exact ⟨by decide, by decide, by decide⟩
  · rw [List.eq_of_mem_replicate hc]
    exact ⟨by decide, by decide, by decide⟩

theorem strip_plain {s : Str} (h : ∀ c ∈ s, Plain c) : strip s = s :=
  strip_of_ends (fun c hc => (h c (List.mem_of_mem_head? hc)).2.2)
    fun c hc => (h c (List.mem_reverse.mp (List.mem_of_mem_head? hc))).2.2

section

variable {dg : UnicodeDigits} {lower : Str → Str}

/-- What `str.lower` does with texts of ASCII that have no capital -/
def KeepsLower (lower : Str → Str) : Prop := ∀ s, (∀ c ∈ s, c.toNat < 128 ∧ c.isUpper = false) → lower s = s

theorem lower_plain (hlower : KeepsLower lower) {s : Str} (h : ∀ c ∈ s, Plain c) : lower (strip s) = s := by
  rw [strip_plain h, hlower s fun c hc => ⟨(h c hc).1, (h c hc).2.1⟩]

/-! ## As CPE versions -/

theorem isDecimal_ascii {c : Char} (h : c.toNat < 128) : CpeVersions.isDecimal dg c = c.isDigit := by
  rw [CpeVersions.isDecimal, dg.value_ascii c h]
  cases hc : c.isDigit <;> simp [asciiDigits, hc]

theorem findall_alpha (s : Str) : CpeVersions.findall dg (lit "alpha." ++ s) = lit "alpha" :: CpeVersions.findall dg s := by
  have hword : lit "alpha." = ['a', 'l', 'p', 'h', 'a', '.'] ∧ lit "alpha" = ['a', 'l', 'p', 'h', 'a'] := by
    with_unfolding_all decide
  have ha : CpeVersions.isDecimal dg 'a' = false := isDecimal_ascii (by decide)
  have hdot : CpeVersions.isDecimal dg '.' = false := isDecimal_ascii (by decide)
  have hlow : CpeVersions.isLower 'a' = true ∧ CpeVersions.isLower 'l' = true ∧ CpeVersions.isLower 'p' = true ∧
      CpeVersions.isLower 'h' = true ∧ CpeVersions.isLower '.' = false := by decide
  rw [hword.1, hword.2]
  simp only [List.cons_append, List.nil_append]
  rw [CpeVersions.findall]
  simp only [ha, hlow, Bool.false_eq_true, if_false, if_true, List.takeWhile_cons, List.dropWhile_cons]
  rw [CpeVersions.findall]
  simp only [hdot, hlow, Bool.false_eq_true, if_false]

theorem findall_alphas (k : Nat) : CpeVersions.findall dg (alphas k) = List.replicate k (lit "alpha") := by
  induction k with
  | zero => rw [alphas, List.replicate_zero, List.flatten_nil, CpeVersions.findall, List.replicate_zero]
  | succ k ih => rw [alphas_succ, findall_alpha, ih, List.replicate_succ]

theorem element_alpha : CpeVersions.element dg (lit "alpha") = .ok (.preRelease (lit "alpha")) := by
  have hdigit : (lit "alpha").all dg.isdigit = false := by
    have hword : lit "alpha" = ['a', 'l', 'p', 'h', 'a'] := by with_unfolding_all decide
    rw [hword]
    simp [dg.isdigit_ascii 'a' (by decide)]
  have hpre : lit "alpha" ∈ CpeVersions._PRE_RELEASE := by with_unfolding_all decide
  rw [CpeVersions.element, hdigit, if_neg Bool.false_ne_true, if_pos hpre]

theorem mapM_replicate {α β ε : Type} {f : α → Except ε β} {a : α} {b : β} (h : f a = .ok b) (k : Nat) :
    (List.replicate k a).mapM f = .ok (List.replicate k b) := by
  induction k with
  | zero => rfl
  | succ k ih =>
    rw [List.replicate_succ, List.mapM_cons, h, ih]
    rfl

theorem dropEpoch_digits {e : Str} (hne : e ≠ []) (h : ∀ c ∈ e, c.isDigit = true) (rest : Str) :
    CpeVersions.dropEpoch dg (e ++ ':' :: rest) = rest := by
  have hcolon : CpeVersions.isDecimal dg ':' = false := isDecimal_ascii (by decide)
  have hdigits : (e ++ ':' :: rest).takeWhile (CpeVersions.isDecimal dg) = e := by
    rw [List.takeWhile_append_of_pos fun c hc => (isDecimal_ascii (isDigit_ascii (h c hc))).trans (h c hc),
      List.takeWhile_cons_of_neg (by simp [hcolon]), List.append_nil]
  rw [CpeVersions.dropEpoch, hdigits]
  simp [hne]

/-- The epoch is dropped, and what is left are the words. -/
theorem key_late (hlower : KeepsLower lower) (k : Nat) :
    CpeVersions._key dg lower (latePackage k) = .ok (List.replicate k (.preRelease (lit "alpha"))) := by
  have hdrop : CpeVersions.dropEpoch dg (latePackage k) = alphas k :=
    dropEpoch_digits bigEpoch_ne_nil bigEpoch_digits _
  rw [CpeVersions._key, lower_plain hlower (plain_late k), hdrop, findall_alphas]
  exact mapM_replicate element_alpha k

theorem alpha_least {x : CpeVersions.Element} {tok : Str} (h : CpeVersions.element dg tok = .ok x) :
    (CpeVersions.compareElement (.preRelease (lit "alpha")) x).isLE = true := by
  have hrank : 0 < CpeVersions.rank x → (CpeVersions.compareElement (.preRelease (lit "alpha")) x).isLE = true := fun hx =>
    isLE_of_lt (CpeVersions.compareElement_of_rank hx)
  unfold CpeVersions.element at h
  split at h
  · split at h
    · cases h
      refine hrank ?_
      next n _ => cases n <;> exact Nat.succ_pos _
    · cases h
  · split at h
    · next hpre =>
      cases h
      have hall : ∀ tok ∈ CpeVersions._PRE_RELEASE,
          (CpeVersions.compareElement (.preRelease (lit "alpha")) (.preRelease tok)).isLE = true := by
            with_unfolding_all decide
      exact hall tok hpre
    · cases h
      exact hrank (Nat.succ_pos _)

theorem late_lt (hlower : KeepsLower lower) {t : Str} {key : List CpeVersions.Element}
    (ht : CpeVersions._key dg lower t = .ok key) : (cpeReading dg lower).Lt (latePackage (key.length + 1)) t := by
  refine ⟨_, key, key_late hlower _, ht, ?_⟩
  have hmin : ∀ x ∈ key, (CpeVersions.compareElement (.preRelease (lit "alpha")) x).isLE = true := by
    intro x hx
    obtain ⟨tok, -, htok⟩ := Refusal.exists_of_mapM ht hx
    exact alpha_least htok
  have hpad : CpeVersions.compareElement (.preRelease (lit "alpha")) .ending = .lt :=
    CpeVersions.compareElement_of_rank (Nat.succ_pos _)
  have hlt := padLex_replicate_lt (Nat.lt_succ_self key.length) hmin hpad []
  rwa [List.append_nil] at hlt

theorem findall_tildes (k : Nat) (s : Str) :
    CpeVersions.findall dg (List.replicate k '~' ++ s) = CpeVersions.findall dg s := by
  have htilde : CpeVersions.isDecimal dg '~' = false := isDecimal_ascii (by decide)
  have hlow : CpeVersions.isLower '~' = false := by decide
  induction k with
  | zero => rfl
  | succ k ih =>
    rw [List.replicate_succ, List.cons_append, CpeVersions.findall, if_neg (by simp [htilde]), if_neg (by simp [hlow]), ih]

theorem findall_zs (n : Nat) : CpeVersions.findall dg (List.replicate (n + 1) 'z') = [List.replicate (n + 1) 'z'] := by
  have hz : CpeVersions.isDecimal dg 'z' = false := isDecimal_ascii (by decide)
  have hlow : CpeVersions.isLower 'z' = true := by decide
  have hall : ∀ c ∈ List.replicate n 'z', CpeVersions.isLower c = true := fun c hc => List.eq_of_mem_replicate hc ▸ hlow
  rw [List.replicate_succ, CpeVersions.findall, if_neg (by simp [hz]), if_pos hlow, List.takeWhile_eq_self_iff.mpr hall,
    List.dropWhile_eq_nil_iff.mpr hall, CpeVersions.findall]

theorem key_early (hlower : KeepsLower lower) (k n : Nat) :
    CpeVersions._key dg lower (earlyPackage k (n + 1)) = .ok [.word (List.replicate (n + 1) 'z')] := by
  have htilde : CpeVersions.isDecimal dg '~' = false := isDecimal_ascii (by decide)
  have hz : CpeVersions.isDecimal dg 'z' = false := isDecimal_ascii (by decide)
  have hepoch : CpeVersions.dropEpoch dg (earlyPackage k (n + 1)) = earlyPackage k (n + 1) := by
    have hnone : (earlyPackage k (n + 1)).takeWhile (CpeVersions.isDecimal dg) = [] := by
      cases k <;> simp [earlyPackage, List.replicate_succ, htilde, hz]
    rw [CpeVersions.dropEpoch, hnone]
    exact if_neg fun h => h.1 rfl
  have hword : CpeVersions.element dg (List.replicate (n + 1) 'z') = .ok (.word (List.replicate (n + 1) 'z')) := by
    have hdigit : (List.replicate (n + 1) 'z').all dg.isdigit = false := by
      simp [List.replicate_succ, dg.isdigit_ascii 'z' (by decide)]
    have hpre : List.replicate (n + 1) 'z' ∉ CpeVersions._PRE_RELEASE := by
      intro hmem
      have hall : ∀ tok ∈ CpeVersions._PRE_RELEASE, tok.head? ≠ some 'z' := by with_unfolding_all decide
      exact hall _ hmem rfl
    rw [CpeVersions.element, hdigit, if_neg Bool.false_ne_true, if_neg hpre]
  rw [CpeVersions._key, lower_plain hlower (plain_early k (n + 1)), hepoch, earlyPackage, findall_tildes, findall_zs,
    List.mapM_cons, hword]
  rfl

theorem compare_zs {tok : Str} {n : Nat} (h : ∀ c ∈ tok, CpeVersions.isLower c = true) (hlen : tok.length < n) :
    Ord.compare tok (List.replicate n 'z') = .lt := by
  induction tok generalizing n with
  | nil =>
    obtain ⟨n, rfl⟩ := Nat.exists_eq_succ_of_ne_zero (Nat.ne_of_gt hlen)
    rfl
  | cons c tok ih =>
    obtain ⟨n, rfl⟩ := Nat.exists_eq_succ_of_ne_zero (Nat.ne_of_gt (Nat.zero_lt_of_lt hlen))
    have hrest := ih (fun x hx => h x (List.mem_cons_of_mem _ hx)) (Nat.lt_of_succ_lt_succ hlen)
    have hc : c ≤ 'z' := by
      have hlow := h c List.mem_cons_self
      rw [CpeVersions.isLower, Bool.and_eq_true] at hlow
      exact of_decide_eq_true hlow.2
    rw [List.replicate_succ, List.compare_cons_cons, hrest]
    rcases Nat.lt_or_eq_of_le (show c.toNat ≤ 'z'.toNat from hc) with hlt | heq
    · have hlt' : c < 'z' := hlt
      simp [Ord.compare, compareOfLessAndEq, hlt']
    · obtain rfl := Char.toNat_inj.mp heq
      rfl

theorem length_findall {tok s : Str} (h : tok ∈ CpeVersions.findall dg s) : tok.length ≤ s.length := by
  fun_induction CpeVersions.findall dg s with
  | case1 => cases h
  | case2 c rest hc ih =>
    rcases List.mem_cons.mp h with rfl | h
    · exact Nat.succ_le_succ (List.takeWhile_prefix _).length_le
    · exact (ih h).trans ((List.dropWhile_suffix _).length_le.trans (Nat.le_succ _))
  | case3 c rest _ hc ih =>
    rcases List.mem_cons.mp h with rfl | h
    · exact Nat.succ_le_succ (List.takeWhile_prefix _).length_le
    · exact (ih h).trans ((List.dropWhile_suffix _).length_le.trans (Nat.le_succ _))
  | case4 c rest _ _ ih => exact (ih h).trans (Nat.le_succ _)

theorem length_dropEpoch (s : Str) : (CpeVersions.dropEpoch dg s).length ≤ s.length := by
  unfold CpeVersions.dropEpoch
  dsimp only
  split
  · rw [List.length_drop]
    omega
  · exact Nat.le_refl _

/-- What Unicode says of decimal digits: `isdigit` accepts them. -/
def DecimalsAreDigits (dg : UnicodeDigits) : Prop := ∀ c, (dg.value c).isSome = true → dg.isdigit c = true

theorem zs_greatest (hdg : DecimalsAreDigits dg) {v tok : Str} {x : CpeVersions.Element} {n : Nat}
    (htok : tok ∈ CpeVersions.findall dg v) (hlen : v.length < n) (h : CpeVersions.element dg tok = .ok x) :
    CpeVersions.compareElement x (.word (List.replicate n 'z')) = .lt := by
  have hrank : CpeVersions.rank x < 3 → CpeVersions.compareElement x (.word (List.replicate n 'z')) = .lt :=
    fun hx => CpeVersions.compareElement_of_rank (y := .word (List.replicate n 'z')) hx
  unfold CpeVersions.element at h
  split at h
  · split at h
    · cases h
      refine hrank ?_
      next m _ => cases m <;> simp [CpeVersions.rank]
    · cases h
  · next hdigits =>
    split at h
    · cases h
      exact hrank (by simp [CpeVersions.rank])
    · cases h
      rw [CpeVersions.compareElement_words]
      refine compare_zs ?_ ((length_findall htok).trans_lt hlen)
      rcases (CpeVersions.mem_findall htok).2 with hdecimal | hlow
      · exact absurd (List.all_eq_true.mpr fun c hc => hdg c (hdecimal c hc)) hdigits
      · exact hlow

theorem lt_early (hlower : KeepsLower lower) (hdg : DecimalsAreDigits dg) {t : Str} {key : List CpeVersions.Element}
    (ht : CpeVersions._key dg lower t = .ok key) (k : Nat) :
    (cpeReading dg lower).Lt t (earlyPackage k ((lower (strip t)).length + 1)) := by
  refine ⟨key, _, ht, key_early hlower k _, ?_⟩
  have hhead : CpeVersions.compareElement (key.headD .ending) (.word (List.replicate ((lower (strip t)).length + 1) 'z')) = .lt := by
    cases key with
    | nil => exact CpeVersions.compareElement_of_rank (by simp [CpeVersions.rank])
    | cons x key =>
      obtain ⟨tok, htok, hx⟩ := Refusal.exists_of_mapM ht (List.mem_cons_self (a := x) (l := key))
      exact zs_greatest hdg htok (Nat.lt_succ_of_le (length_dropEpoch _)) hx
  change padLex CpeVersions.compareElement .ending key [_] = .lt
  rw [padLex_step, List.headD_cons, hhead]
  rfl

/-! ## As package versions -/

theorem early_no (k n : Nat) {c : Char} (ht : c ≠ '~') (hz : c ≠ 'z') : c ∉ earlyPackage k n := by
  intro h
  rcases List.mem_append.mp h with h | h
  · exact ht (List.eq_of_mem_replicate h)
  · exact hz (List.eq_of_mem_replicate h)

theorem deb_split_early (k n : Nat) : _deb_split dg (earlyPackage k n) = .ok (0, earlyPackage k n, []) := by
  have hcolon : ':' ∉ earlyPackage k n := early_no k n (by decide) (by decide)
  have hdash : '-' ∉ earlyPackage k n := early_no k n (by decide) (by decide)
  rw [_deb_split, strip_plain (plain_early k n)]
  simp [hcolon, hdash]

theorem rpm_split_early (k n : Nat) : RpmVersions._rpm_split dg (earlyPackage k n) = .ok (0, earlyPackage k n, []) := by
  have hdash : '-' ∉ earlyPackage k n := early_no k n (by decide) (by decide)
  have hline : '\n' ∉ earlyPackage k n := early_no k n (by decide) (by decide)
  have hepoch : RpmVersions.evrEpoch dg (earlyPackage k n) = [] := by
    have hv : ∀ c, c = '~' ∨ c = 'z' → (dg.value c).isSome = false := by
      rintro c (rfl | rfl) <;> rw [dg.value_ascii _ (by decide)] <;> decide
    have hnone : (earlyPackage k n).takeWhile (fun c => (dg.value c).isSome) = [] := by
      cases k with
      | zero => cases n <;> simp [earlyPackage, List.replicate_succ, hv]
      | succ k => simp [earlyPackage, List.replicate_succ, hv]
    rw [RpmVersions.evrEpoch, hnone]
    simp
  rw [RpmVersions._rpm_split, strip_plain (plain_early k n), RpmVersions.evr, RpmVersions.afterEpoch, hepoch]
  simp [hdash, hline]

theorem late_no (k : Nat) {c : Char} (hc : c ∉ lit "alpha.") : c ∉ alphas k := fun h => hc (mem_alphas h)

theorem int_bigEpoch : int dg.toDigits bigEpoch = some (lateEpoch : Int) := by
  rw [lateEpoch]
  refine int_digits dg bigEpoch_ne_nil bigEpoch_digits ?_
  rw [bigEpoch, List.length_cons, List.length_replicate]

theorem deb_split_epoch {e rest : Str} {n : Int} (hne : e ≠ []) (he : ∀ c ∈ e, c.isDigit = true)
    (hstrip : strip (e ++ ':' :: rest) = e ++ ':' :: rest) (hint : int dg.toDigits e = some n) (hdash : '-' ∉ rest) :
    _deb_split dg (e ++ ':' :: rest) = .ok (n, rest, []) := by
  have hno : ':' ∉ e := fun h => absurd (he _ h) (by decide)
  have htake : (e ++ ':' :: rest).takeWhile (· ≠ ':') = e := by
    rw [List.takeWhile_append_of_pos fun c hc => by simpa using fun h : c = ':' => hno (h ▸ hc),
      List.takeWhile_cons_of_neg (by simp), List.append_nil]
  have hdrop : (e ++ ':' :: rest).drop (e.length + 1) = rest := by
    rw [List.drop_append, List.drop_of_length_le (Nat.le_succ _)]
    simp
  have hall : e.all dg.isdigit = true :=
    List.all_eq_true.mpr fun c hc => (dg.isdigit_ascii c (isDigit_ascii (he c hc))).trans (he c hc)
  have hcond : ':' ∈ e ++ ':' :: rest ∧ e ≠ [] ∧ e.all dg.isdigit = true :=
    ⟨List.mem_append_right _ List.mem_cons_self, hne, hall⟩
  rw [_deb_split, hstrip]
  dsimp only
  rw [htake, if_pos hcond, strip_digits he, hint, hdrop]
  simp [hdash]

theorem deb_split_late (k : Nat) : _deb_split dg (latePackage k) = .ok (lateEpoch, alphas k, []) :=
  deb_split_epoch bigEpoch_ne_nil bigEpoch_digits (strip_plain (plain_late k)) int_bigEpoch
    (late_no k (by with_unfolding_all decide))

theorem rpm_split_epoch {e rest : Str} {n : Int} (hne : e ≠ []) (he : ∀ c ∈ e, c.isDigit = true)
    (hstrip : strip (e ++ ':' :: rest) = e ++ ':' :: rest) (hint : int dg.toDigits e = some n) (hdash : '-' ∉ rest)
    (hline : '\n' ∉ rest) : RpmVersions._rpm_split dg (e ++ ':' :: rest) = .ok (n, rest, []) := by
  have htake : (e ++ ':' :: rest).takeWhile (fun c => (dg.value c).isSome) = e := by
    have hcolon : (dg.value ':').isSome = false := by
      rw [dg.value_ascii _ (by decide)]
      decide
    have hvalue : ∀ c ∈ e, (dg.value c).isSome = true := fun c hc =>
      (isDecimal_ascii (isDigit_ascii (he c hc))).trans (he c hc)
    rw [List.takeWhile_append_of_pos hvalue, List.takeWhile_cons_of_neg (by simp [hcolon]), List.append_nil]
  have hepoch : RpmVersions.evrEpoch dg (e ++ ':' :: rest) = e := by
    rw [RpmVersions.evrEpoch, htake]
    simp
  have hafter : RpmVersions.afterEpoch dg (e ++ ':' :: rest) = rest := by
    rw [RpmVersions.afterEpoch, hepoch, if_neg hne, List.drop_append, List.drop_of_length_le (Nat.le_succ _)]
    simp
  rw [RpmVersions._rpm_split, hstrip, RpmVersions.evr, hepoch, hafter]
  simp [hdash, hline, hne, hint]

theorem rpm_split_late (k : Nat) : RpmVersions._rpm_split dg (latePackage k) = .ok (lateEpoch, alphas k, []) :=
  rpm_split_epoch bigEpoch_ne_nil bigEpoch_digits (strip_plain (plain_late k)) int_bigEpoch
    (late_no k (by with_unfolding_all decide)) (late_no k (by with_unfolding_all decide))

/-- The epoch of a package version is smaller than the one of the late texts. -/
def SmallEpoch (dg : UnicodeDigits) : Family → Str → Prop
  | .deb, t => ∀ w, _deb_split dg t = .ok w → w.1 < lateEpoch
  | .rpm, t => ∀ w, RpmVersions._rpm_split dg t = .ok w → w.1 < lateEpoch

theorem lt_late {fam : Family} {t : Str} (hsmall : SmallEpoch dg fam t) (hread : ∃ key, (reading dg fam).read t = .ok key)
    (k : Nat) : (reading dg fam).Lt t (latePackage k) := by
  obtain ⟨key, hkey⟩ := hread
  cases fam with
  | deb =>
    refine ⟨key, _, hkey, deb_split_late k, ?_⟩
    have hlt := Int.compare_eq_lt.mpr (hsmall key hkey)
    simp only [reading, debReading, DebOrder.compareSplit, compareLex, compareOn]
    rw [hlt]
    rfl
  | rpm =>
    have hread : (RpmVersions._rpm_split dg t).map evrKey = .ok key := hkey
    cases hw : RpmVersions._rpm_split dg t with
    | error e =>
      rw [hw] at hread
      cases hread
    | ok w =>
      rw [hw] at hread
      cases hread
      refine ⟨evrKey w, _, hkey, congrArg (Except.map evrKey) (rpm_split_late k), ?_⟩
      have hlt := Int.compare_eq_lt.mpr (hsmall w hw)
      simp only [reading, rpmReading, openTail, compareVersion, compareLex, compareOn, evrKey]
      rw [hlt]
      rfl

theorem int_nonneg {s : Str} {n : Int} (hs : '-' ∉ s) (h : int dg.toDigits s = some n) : 0 ≤ n := by
  have hcast : ∀ rest, (natural dg.toDigits rest >>= fun m => pure (m : Int)) = some n → 0 ≤ n := by
    intro rest hrest
    cases hm : natural dg.toDigits rest with
    | none =>
      rw [hm] at hrest
      cases hrest
    | some m =>
      rw [hm] at hrest
      cases hrest
      exact Int.natCast_nonneg m
  unfold int at h
  split at h
  · exact absurd List.mem_cons_self hs
  · exact hcast _ (by simpa using h)
  · exact hcast _ (by simpa using h)

theorem length_strip (s : Str) : (strip s).length ≤ s.length :=
  ( rstrip_prefix _).length_le.trans (List.dropWhile_suffix _).length_le

theorem length_rsplit (c : Char) (s : Str) : (rsplit c s).1.length ≤ s.length := by
  have htail : (s.reverse.dropWhile (· ≠ c)).tail <:+ s.reverse := (List.tail_suffix _).trans (List.dropWhile_suffix _)
  rw [rsplit, List.length_reverse]
  exact htail.length_le.trans (Nat.le_of_eq List.length_reverse)

/-- The epoch that is read is not negative, and the version is no longer than the text. -/
theorem deb_split_bounds {t : Str} {w : Int × Str × Str} (h : _deb_split dg t = .ok w) : 0 ≤ w.1 ∧ w.2.1.length ≤ t.length := by
  have hparts : ∀ (n : Int) (s : Str), s.length ≤ t.length → 0 ≤ n →
      0 ≤ (if '-' ∈ s then (n, rsplit '-' s) else (n, s, [])).1 ∧
        (if '-' ∈ s then (n, rsplit '-' s) else (n, s, [])).2.1.length ≤ t.length := by
    intro n s hs hn
    split
    · exact ⟨hn, (length_rsplit '-' s).trans hs⟩
    · exact ⟨hn, hs⟩
  unfold _deb_split at h
  dsimp only at h
  split at h
  · next hcond =>
    split at h
    · next n hint =>
      cases h
      refine hparts n _ ((List.drop_suffix _ _).length_le.trans (length_strip t)) (int_nonneg ?_ hint)
      intro hdash
      have hdigit := List.all_eq_true.mp hcond.2.2 _ (mem_of_mem_strip hdash)
      rw [dg.isdigit_ascii '-' (by decide)] at hdigit
      exact absurd hdigit (by decide)
    · cases h
  · cases h
    exact hparts 0 _ (length_strip t) (Int.le_refl 0)

theorem rpm_split_bounds {t : Str} {w : Int × Str × Str} (h : RpmVersions._rpm_split dg t = .ok w) :
    0 ≤ w.1 ∧ w.2.1.length ≤ t.length := by
  have hversion : (RpmVersions.evr dg (strip t)).2.1.length ≤ t.length := by
    have hafter : (RpmVersions.afterEpoch dg (strip t)).length ≤ t.length := by
      unfold RpmVersions.afterEpoch
      split
      · exact length_strip t
      · exact (List.drop_suffix _ _).length_le.trans (length_strip t)
    simp only [RpmVersions.evr]
    split
    · exact (length_rsplit '-' _).trans hafter
    · exact hafter
  unfold RpmVersions._rpm_split at h
  dsimp only at h
  split at h
  · cases h
  · split at h
    · cases h
      exact ⟨Int.le_refl 0, hversion⟩
    · split at h
      · next n hint =>
        cases h
        refine ⟨int_nonneg ?_ hint, hversion⟩
        intro hdash
        have hvalue := RpmVersions.evr_epoch_digits dg _ _ hdash
        rw [dg.value_ascii '-' (by decide)] at hvalue
        exact absurd hvalue (by decide)
      · cases h

theorem compareTexts_early {u : Str} {k : Nat} (hlen : u.length < k) (n : Nat) :
    DebOrder.compareTexts dg (earlyPackage k n) u = .lt := by
  have htilde : dg.isdigit '~' = false := dg.isdigit_ascii '~' (by decide)
  have hz : dg.isdigit 'z' = false := dg.isdigit_ascii 'z' (by decide)
  have horders : DebOrder.orders dg (earlyPackage k n) = List.replicate k (-1) ++ List.replicate n (_deb_order dg 'z') := by
    have hall : ∀ c ∈ earlyPackage k n, (!dg.isdigit c) = true := by
      intro c hc
      rcases List.mem_append.mp hc with hc | hc <;> rw [List.eq_of_mem_replicate hc]
      · simp [htilde]
      · simp [hz]
    have horder : _deb_order dg '~' = -1 := by simp [_deb_order, htilde]
    rw [DebOrder.orders, List.takeWhile_eq_self_iff.mpr hall, earlyPackage, List.map_append, List.map_replicate,
      List.map_replicate, horder]
  have hmin : ∀ y ∈ DebOrder.orders dg u, (Ord.compare (-1 : Int) y).isLE = true := by
    intro y hy
    obtain ⟨c, -, rfl⟩ := List.mem_map.mp hy
    refine Int.isLE_compare.mpr ?_
    unfold _deb_order
    split
    · decide
    · split
      · omega
      · split <;> omega
  have hshort : (DebOrder.orders dg u).length < k := by
    rw [DebOrder.orders, List.length_map]
    exact (List.takeWhile_prefix _).length_le.trans_lt hlen
  rw [DebOrder.pieces_step, DebOrder.comparePiece, compareLex, onto, horders,
    padLex_replicate_lt hshort hmin (Int.compare_eq_lt.mpr (by decide))]
  rfl

theorem tokens_tilde (s : Str) : RpmVersions.tokens ('~' :: s) = .tilde :: RpmVersions.tokens s := by
  have hnext : RpmVersions.next ('~' :: s) = some (.tilde, s) := by
    have hskip : RpmVersions.skip ('~' :: s) = '~' :: s := by simp [RpmVersions.skip, RpmVersions.separates]
    simp [RpmVersions.next, hskip]
  rw [RpmVersions.tokens]
  split
  · next h =>
    rw [hnext] at h
    cases h
  · next h =>
    rw [hnext] at h
    cases h
    rfl

theorem length_tokens (s : Str) : (RpmVersions.tokens s).length ≤ s.length := by
  fun_induction RpmVersions.tokens s with
  | case1 => simp
  | case2 s t rest h ih =>
    have hlt := RpmVersions.next_lt h
    rw [List.length_cons]
    omega

theorem compareTokens_early {u : Str} {k : Nat} (hlen : u.length < k) (n : Nat) :
    RpmVersions.compareTokens (earlyPackage k n) u = .lt := by
  have htokens : ∀ s : Str, RpmVersions.tokens (List.replicate k '~' ++ s) =
      List.replicate k RpmVersions.Token.tilde ++ RpmVersions.tokens s := by
    intro s
    clear hlen
    induction k with
    | zero => rfl
    | succ k ih => rw [List.replicate_succ, List.cons_append, tokens_tilde, ih, List.replicate_succ, List.cons_append]
  have hmin : ∀ y ∈ (RpmVersions.tokens u).map some, (RpmVersions.compareToken (some .tilde) y).isLE = true := by
    intro y hy
    obtain ⟨x, -, rfl⟩ := List.mem_map.mp hy
    cases x with
    | tilde => decide
    | _ => exact isLE_of_lt (RpmVersions.compareToken_lt (by simp [RpmVersions.rank]))
  have hshort : ((RpmVersions.tokens u).map some).length < k := by
    rw [List.length_map]
    exact (length_tokens u).trans_lt hlen
  rw [RpmVersions.compareTokens, onto, earlyPackage, htokens, List.map_append, List.map_replicate]
  exact padLex_replicate_lt hshort hmin (by decide) _

theorem early_lt {fam : Family} {t : Str} (hread : ∃ key, (reading dg fam).read t = .ok key) (n : Nat) :
    (reading dg fam).Lt (earlyPackage (t.length + 1) n) t := by
  obtain ⟨key, hkey⟩ := hread
  cases fam with
  | deb =>
    refine ⟨_, key, deb_split_early _ n, hkey, ?_⟩
    obtain ⟨hepoch, hlen⟩ := deb_split_bounds hkey
    have htexts : DebOrder.compareTexts dg (earlyPackage (t.length + 1) n) key.2.1 = .lt :=
      compareTexts_early (Nat.lt_succ_of_le hlen) n
    simp only [reading, debReading, DebOrder.compareSplit, compareLex, compareOn, onto]
    rw [htexts]
    rcases Int.lt_or_eq_of_le hepoch with h | h
    · rw [Int.compare_eq_lt.mpr h]
      rfl
    · rw [Int.compare_eq_eq.mpr h]
      rfl
  | rpm =>
    have hread : (RpmVersions._rpm_split dg t).map evrKey = .ok key := hkey
    cases hw : RpmVersions._rpm_split dg t with
    | error e =>
      rw [hw] at hread
      cases hread
    | ok w =>
      rw [hw] at hread
      cases hread
      refine ⟨_, evrKey w, congrArg (Except.map evrKey) (rpm_split_early _ n), hkey, ?_⟩
      obtain ⟨hepoch, hlen⟩ := rpm_split_bounds hw
      have htokens := compareTokens_early (Nat.lt_succ_of_le hlen) n
      simp only [reading, rpmReading, openTail, compareVersion, compareLex, compareOn, onto, evrKey]
      rw [htokens]
      rcases Int.lt_or_eq_of_le hepoch with h | h
      · rw [Int.compare_eq_lt.mpr h]
        rfl
      · rw [Int.compare_eq_eq.mpr h]
        rfl

end

/-! ## Groups of two orders -/

section

variable (dg : UnicodeDigits) (lower : Str → Str) (vendor_link : Str → Str → List Str → Link)

/-- Targets that can be read, with no endless epoch and, for rpm, with a release; the packages of an asset are of one family,
and a kernel that waits for a restart shares its step with packages only. -/
structure Plausible (rows : List Row) : Prop where
  readable : ∀ r ∈ rows, classOf (kindOf lower vendor_link r) = .upgrade →
    ∃ key, ((orderFor lower vendor_link r).reading dg lower).read (target lower vendor_link r) = .ok key
  firm : ∀ r ∈ rows, ((orderFor lower vendor_link r).reading dg lower).FirmAt (target lower vendor_link r)
  epoch : ∀ r ∈ rows, ∀ fam, orderFor lower vendor_link r = .packages fam → SmallEpoch dg fam (target lower vendor_link r)
  family : ∀ r ∈ rows, ∀ s ∈ rows, r.key lower vendor_link = s.key lower vendor_link →
    ∀ f g, orderFor lower vendor_link r = .packages f → orderFor lower vendor_link s = .packages g → f = g
  restart : ∀ r ∈ rows, ∀ s ∈ rows, r.key lower vendor_link = s.key lower vendor_link →
    kindOf lower vendor_link r = .reboot → ∃ fam, orderFor lower vendor_link s = .packages fam

end

section

variable {dg : UnicodeDigits} {lower : Str → Str} {vendor_link : Str → Str → List Str → Link} {rows : List Row}

theorem kind_of_packages {r : Row} {fam : Family} (h : orderFor lower vendor_link r = .packages fam) :
    kindOf lower vendor_link r = .package ∨ kindOf lower vendor_link r = .reboot := by
  unfold orderFor at h
  split at h
  · split at h
    · assumption
    · cases h
  · cases h

/-- A text that meets the one finding and not the other one of another order -/
theorem exists_apart (hlower : KeepsLower lower) (hdg : DecimalsAreDigits dg) (hp : Plausible dg lower vendor_link rows)
    {m r : Row} (hm : m ∈ rows) (hr : r ∈ rows) (hkey : m.key lower vendor_link = r.key lower vendor_link)
    (hmk : kindOf lower vendor_link m = .version ∨ kindOf lower vendor_link m = .package ∨ kindOf lower vendor_link m = .after)
    (hrk : kindOf lower vendor_link r = .version ∨ kindOf lower vendor_link r = .package ∨ kindOf lower vendor_link r = .after)
    (hne : orderFor lower vendor_link r ≠ orderFor lower vendor_link m) :
    ∃ v, Meets dg lower vendor_link m v ∧ ¬ Meets dg lower vendor_link r v := by
  have hclass : ∀ s, (kindOf lower vendor_link s = .version ∨ kindOf lower vendor_link s = .package ∨
      kindOf lower vendor_link s = .after) → classOf (kindOf lower vendor_link s) = .upgrade := by
    rintro s (h | h | h) <;> rw [h] <;> rfl
  have hmeets : ∀ v, ((orderFor lower vendor_link m).reading dg lower).Lt (target lower vendor_link m) v →
      Meets dg lower vendor_link m v := by
    intro v hv
    unfold Meets
    rcases hmk with h | h | h <;> rw [h]
    · exact hv.le
    · exact hv.le
    · exact hv
  have hmisses : ∀ v, ((orderFor lower vendor_link r).reading dg lower).Lt v (target lower vendor_link r) →
      ¬ Meets dg lower vendor_link r v := by
    intro v hv hmeet
    unfold Meets at hmeet
    rcases hrk with h | h | h <;> rw [h] at hmeet
    · exact hv.not_le hmeet
    · exact hv.not_le hmeet
    · exact hv.not_le hmeet.le
  have hkm := hp.readable m hm (hclass m hmk)
  have hkr := hp.readable r hr (hclass r hrk)
  cases hmo : orderFor lower vendor_link m with
  | cpe =>
    cases hro : orderFor lower vendor_link r with
    | cpe => exact absurd (hro.trans hmo.symm) hne
    | packages fam =>
      rw [hmo] at hkm hmeets
      rw [hro] at hkr hmisses
      obtain ⟨km, hkm⟩ := hkm
      exact ⟨_, hmeets _ (lt_early hlower hdg hkm _), hmisses _ (early_lt hkr _)⟩
  | packages fam =>
    cases hro : orderFor lower vendor_link r with
    | cpe =>
      have hsmall := hp.epoch m hm fam hmo
      rw [hmo] at hkm hmeets
      rw [hro] at hkr hmisses
      obtain ⟨kr, hkr⟩ := hkr
      exact ⟨_, hmeets _ (lt_late hsmall hkm _), hmisses _ (late_lt hlower hkr)⟩
    | packages fam' => exact absurd (by rw [hro, hmo, hp.family m hm r hr hkey fam fam' hmo hro]) hne

theorem kind_of_upgrade {r : Row} (h : classOf (kindOf lower vendor_link r) = .upgrade) (hreboot : kindOf lower vendor_link r ≠ .reboot) :
    kindOf lower vendor_link r = .version ∨ kindOf lower vendor_link r = .package ∨ kindOf lower vendor_link r = .after := by
  cases hk : kindOf lower vendor_link r with
  | version => exact .inl rfl
  | package => exact .inr (.inl rfl)
  | after => exact .inr (.inr rfl)
  | reboot => exact absurd hk hreboot
  | advisory =>
    rw [hk] at h
    cases h
  | windows =>
    rw [hk] at h
    cases h

theorem order_of_class {r : Row} (h : classOf (kindOf lower vendor_link r) ≠ .upgrade) : orderFor lower vendor_link r = .cpe := by
  refine orderFor_cpe ?_ ?_ <;> intro hk <;> exact h (by rw [hk]; rfl)

/-- Where steps close what they count, the findings of each are compared in the order of its best one. -/
theorem order_of_closes (hlower : KeepsLower lower) (hdg : DecimalsAreDigits dg) (hp : Plausible dg lower vendor_link rows)
    {out : List (Nat × List Step)} (h : plan dg lower vendor_link rows = .ok out) (hcloses : Closes dg lower vendor_link out)
    {r s : Row} (hr : r ∈ rows) (hs : s ∈ rows) (hkey : r.key lower vendor_link = s.key lower vendor_link) :
    orderFor lower vendor_link r = orderFor lower vendor_link s := by
  by_cases hclass : (r.key lower vendor_link).2.1 = .upgrade
  · obtain ⟨groups, g, hg, hget, e, he, hstep⟩ := exists_step h hr
    obtain ⟨first, rest, hrows, hcounted, hbest⟩ := hg.some _ g hget
    have hmem : g.best ∈ members lower vendor_link rows (r.key lower vendor_link) := hrows ▸ greatest_mem hbest
    have hm : g.best ∈ rows := List.mem_of_mem_filter hmem
    have hmkey : g.best.key lower vendor_link = r.key lower vendor_link := by simpa [members] using (List.mem_filter.mp hmem).2
    have hbestOrder : ∀ x ∈ rows, x.key lower vendor_link = r.key lower vendor_link →
        orderFor lower vendor_link x = orderFor lower vendor_link g.best := by
      intro x hx hxkey
      by_contra hne
      have hxm := hxkey.trans hmkey.symm
      -- a finding that waits for a restart is in a group of packages of one family
      have hpackages : ∀ y ∈ rows, y.key lower vendor_link = r.key lower vendor_link → kindOf lower vendor_link y ≠ .reboot := by
        intro y hy hykey hreboot
        obtain ⟨f, hf⟩ := hp.restart y hy x hx (hykey.trans hxkey.symm) hreboot
        obtain ⟨f', hf'⟩ := hp.restart y hy g.best hm (hykey.trans hmkey.symm) hreboot
        exact hne (by rw [hf, hf', hp.family x hx g.best hm hxm f f' hf hf'])
      have hkinds : ∀ y ∈ rows, y.key lower vendor_link = r.key lower vendor_link → kindOf lower vendor_link y = .version ∨
          kindOf lower vendor_link y = .package ∨ kindOf lower vendor_link y = .after := by
        intro y hy hykey
        refine kind_of_upgrade ?_ (hpackages y hy hykey)
        have hyclass : classOf (kindOf lower vendor_link y) = (y.key lower vendor_link).2.1 := rfl
        rw [hyclass, hykey, hclass]
      have hmk := hkinds g.best hm hmkey
      obtain ⟨v, hv, hnot⟩ := exists_apart hlower hdg hp hm hx hxm.symm hmk (hkinds x hx hxkey) hne
      refine hnot (hcloses e he _ hstep hmk v hv x ?_)
      change x ∈ g.counted
      rw [hcounted, ← hrows]
      exact List.mem_filter.mpr ⟨hx, by simpa using hxkey⟩
    rw [hbestOrder r hr rfl, hbestOrder s hs hkey.symm]
  · have hs' : classOf (kindOf lower vendor_link s) ≠ .upgrade := by
      rw [hkey] at hclass
      exact hclass
    rw [order_of_class hclass, order_of_class hs']

/-- The steps of a plan close what they count when each group is compared in one order and none has a tie; for plausible
findings that is the only case. -/
theorem plan_closes_iff {out : List (Nat × List Step)} (h : plan dg lower vendor_link rows = .ok out) :
    (Uniform dg lower vendor_link rows → NoTie dg lower vendor_link rows → Closes dg lower vendor_link out) ∧
    (KeepsLower lower → DecimalsAreDigits dg → Plausible dg lower vendor_link rows → Closes dg lower vendor_link out →
      Uniform dg lower vendor_link rows ∧ NoTie dg lower vendor_link rows) := by
  refine ⟨fun hu => (closes_iff h hu).mpr, fun hlower hdg hp hcloses => ?_⟩
  have hu : Uniform dg lower vendor_link rows :=
    ⟨fun r hr s hs hkey => order_of_closes hlower hdg hp h hcloses hr hs hkey, hp.firm⟩
  exact ⟨hu, (closes_iff h hu).mp hcloses⟩

end

/-! ## A product with two findings -/

def product (cve fixed : Str) (last : Option Str) : Row where
  finding := ⟨1, none, cve, lit "nvd", some (lit "FortiOS"), some (lit "fortios"), some (lit "fortinet"), some fixed, none, [],
    false, none, [], none, false, none, some 2, some (lit "high")⟩
  references := []
  kev_action := none
  end_incl := last
  eol := none

def noLink (_ _ : Str) (_ : List Str) : Link := ⟨[], []⟩

def twoFixed : List Row := [product (lit "CVE-1") (lit "7.2.8") none, product (lit "CVE-2") (lit "7.2.9") none]

theorem exists_plan (rows : List Row) (h : (plan asciiOnly id noLink rows).isOk = true) :
    ∃ out, plan asciiOnly id noLink rows = .ok out := by
  cases hplan : plan asciiOnly id noLink rows with
  | error e =>
    rw [hplan] at h
    cases h
  | ok out => exact ⟨out, rfl⟩

theorem twoFixed_closed : ∃ out, plan asciiOnly id noLink twoFixed = .ok out ∧ Closes asciiOnly id noLink out := by
  obtain ⟨out, hout⟩ := exists_plan twoFixed (by with_unfolding_all decide)
  have horder : ∀ r ∈ twoFixed, orderFor id noLink r = .cpe := by with_unfolding_all decide
  have hkind : ∀ r ∈ twoFixed, kindOf id noLink r ≠ .after := by with_unfolding_all decide
  refine ⟨out, hout, (plan_closes_iff hout).1 ⟨fun r hr s hs _ => (horder r hr).trans (horder s hs).symm, fun r hr => ?_⟩ ?_⟩
  · rw [horder r hr]
    exact firmAt_cpe _
  · exact fun _ _ _ _ _ r hr _ hafter => absurd hafter (hkind r hr)

def fixedRow : Row := product (lit "CVE-1") (lit "7.2.9") none

def lastRow : Row := product (lit "CVE-2") (lit "after 7.2.9") (some (lit "7.2.9"))

/-- 7.2.9 is the fixed version of the one, and the last vulnerable version of the other. -/
def fixedAndLast : List Row := [fixedRow, lastRow]

/-- Version 7.2.9 follows the step, and is still vulnerable. -/
theorem fixedAndLast_not_closed :
    ∃ out, plan asciiOnly id noLink fixedAndLast = .ok out ∧ ¬ Closes asciiOnly id noLink out := by
  obtain ⟨out, hout⟩ := exists_plan fixedAndLast (by with_unfolding_all decide)
  have horder : ∀ r ∈ fixedAndLast, orderFor id noLink r = .cpe := by with_unfolding_all decide
  have hu : Uniform asciiOnly id noLink fixedAndLast := by
    refine ⟨fun r hr s hs _ => (horder r hr).trans (horder s hs).symm, fun r hr => ?_⟩
    rw [horder r hr]
    exact firmAt_cpe _
  refine ⟨out, hout, fun hcloses => ?_⟩
  have hmembers : ∀ r ∈ fixedAndLast, target id noLink r = lit "7.2.9" := by with_unfolding_all decide
  have hle : (cpeReading asciiOnly id).Le (lit "7.2.9") (lit "7.2.9") := by
    have hcompare : CpeVersions.compare asciiOnly id (lit "7.2.9") (lit "7.2.9") = .ok 0 := by
      with_unfolding_all decide
    rw [cpe_compare_reading] at hcompare
    exact (compare_nonpos hcompare).mp (Int.le_refl 0)
  have hfixed : fixedRow ∈ fixedAndLast := by simp [fixedAndLast]
  have hlast : lastRow ∈ fixedAndLast := by simp [fixedAndLast]
  have hall : ∀ r ∈ fixedAndLast, ∀ s ∈ fixedAndLast,
      ((orderFor id noLink fixedRow).reading asciiOnly id).Le (target id noLink r) (target id noLink s) := by
    intro r hr s hs
    rw [horder fixedRow hfixed, hmembers r hr, hmembers s hs]
    exact hle
  refine (closes_iff hout hu).mp hcloses fixedRow [] [lastRow]
    ⟨by with_unfolding_all decide, by simp, fun r hr => ?_⟩
    (.inl (by with_unfolding_all decide)) lastRow hlast (by with_unfolding_all decide)
      (by with_unfolding_all decide) (hall fixedRow hfixed lastRow hlast)
  exact hall r (List.mem_cons_of_mem _ hr) fixedRow hfixed

end StepVersions
