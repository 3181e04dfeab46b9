import Ngcorion.PaddedOrder

/-!
# Comparing by keys

Texts are compared by keys that are read from them, where reading may fail. A key may lack its last part, and then it is
level with every key that continues it: such an order is transitive only through keys that have the part.
-/
namespace KeyOrder

open PaddedOrder

/-! ## Comparisons -/

section

variable {K : Type}

/-- A comparison that is transitive through firm keys; what is strict in it is transitive. -/
structure Soft (cmp : K → K → Ordering) (Firm : K → Prop) : Prop where
  swap : ∀ a b, cmp b a = (cmp a b).swap
  trans : ∀ {a b c}, Firm b → (cmp a b).isLE = true → (cmp b c).isLE = true → (cmp a c).isLE = true
  lt_trans : ∀ {a b c}, cmp a b = .lt → cmp b c = .lt → cmp a c = .lt
  le_of_le_of_lt : ∀ {a b c}, (cmp a b).isLE = true → cmp b c = .lt → (cmp a c).isLE = true

theorem soft_of_trans (cmp : K → K → Ordering) [Std.TransCmp cmp] : Soft cmp fun _ => True where
  swap _ _ := Std.OrientedCmp.eq_swap
  trans _ hab hbc := Std.TransCmp.isLE_trans hab hbc
  lt_trans hab hbc := Std.TransCmp.lt_trans hab hbc
  le_of_le_of_lt hab hbc := Std.TransCmp.isLE_trans hab (by rw [hbc]; rfl)

variable {F : Type}

def tail (fine : F → F → Ordering) : Option F → Option F → Ordering
  | some s, some t => fine s t
  | _, _ => .eq

/-- Keys whose last part may be missing -/
def openTail (cmp : K → K → Ordering) (fine : F → F → Ordering) (a b : K × Option F) : Ordering :=
  (cmp a.1 b.1).then (tail fine a.2 b.2)

theorem tail_trans {fine : F → F → Ordering} [Std.TransCmp fine] {s t u : Option F} (ht : t.isSome = true)
    (hst : (tail fine s t).isLE = true) (htu : (tail fine t u).isLE = true) : (tail fine s u).isLE = true := by
  cases t with
  | none => cases ht
  | some t =>
    cases s with
    | none => rfl
    | some s =>
      cases u with
      | none => rfl
      | some u => exact @Std.TransCmp.isLE_trans _ fine _ _ _ _ hst htu

/-- A strict comparison is one of two last parts. -/
theorem tail_lt {fine : F → F → Ordering} {s t : Option F} (h : tail fine s t = .lt) : s.isSome = true ∧ t.isSome = true := by
  cases s with
  | none => cases h
  | some s =>
    cases t with
    | none => cases h
    | some t => exact ⟨rfl, rfl⟩

theorem tail_lt_trans {fine : F → F → Ordering} [Std.TransCmp fine] {s t u : Option F} (hst : tail fine s t = .lt)
    (htu : tail fine t u = .lt) : tail fine s u = .lt := by
  cases s with
  | none => cases hst
  | some s =>
    cases t with
    | none => cases hst
    | some t =>
      cases u with
      | none => cases htu
      | some u => exact @Std.TransCmp.lt_trans _ fine _ _ _ _ hst htu

theorem Soft.isLE_self {cmp : K → K → Ordering} {Firm : K → Prop} (h : Soft cmp Firm) (a : K) : (cmp a a).isLE = true := by
  have hswap := h.swap a a
  cases hc : cmp a a with
  | gt =>
    rw [hc] at hswap
    cases hswap
  | _ => rfl

theorem isLE_of_lt {o : Ordering} (h : o = .lt) : o.isLE = true := by
  rw [h]
  rfl

theorem soft_openTail (cmp : K → K → Ordering) (fine : F → F → Ordering) [Std.TransCmp cmp] [Std.TransCmp fine] :
    Soft (openTail cmp fine) fun k => k.2.isSome = true where
  swap a b := by
    have htail : tail fine b.2 a.2 = (tail fine a.2 b.2).swap := by
      cases a.2 with
      | none => cases b.2 <;> rfl
      | some s =>
        cases b.2 with
        | none => rfl
        | some t => exact @Std.OrientedCmp.eq_swap _ fine _ t s
    rw [openTail, openTail, Ordering.swap_then, ← htail, ← @Std.OrientedCmp.eq_swap _ cmp _ b.1 a.1]
  trans {a b c} hb hab hbc := by
    rw [openTail, Ordering.isLE_then_iff_and] at *
    refine ⟨Std.TransCmp.isLE_trans hab.1 hbc.1, ?_⟩
    rcases hab.2 with h | h
    · exact .inl (Std.TransCmp.lt_of_lt_of_isLE h hbc.1)
    · rcases hbc.2 with h' | h'
      · exact .inl (Std.TransCmp.lt_of_isLE_of_lt hab.1 h')
      · exact .inr (tail_trans hb h h')
  lt_trans {a b c} hab hbc := by
    rw [openTail, Ordering.then_eq_lt] at *
    rcases hab with h | ⟨h, ht⟩
    · rcases hbc with h' | ⟨h', -⟩
      · exact .inl (Std.TransCmp.lt_trans h h')
      · exact .inl (Std.TransCmp.lt_of_lt_of_eq h h')
    · rcases hbc with h' | ⟨h', ht'⟩
      · exact .inl (Std.TransCmp.lt_of_eq_of_lt h h')
      · exact .inr ⟨Std.TransCmp.eq_trans h h', tail_lt_trans ht ht'⟩
  le_of_le_of_lt {a b c} hab hbc := by
    rw [openTail, Ordering.isLE_then_iff_and] at hab ⊢
    rw [openTail, Ordering.then_eq_lt] at hbc
    rcases hbc with h' | ⟨h', ht'⟩
    · have hac := Std.TransCmp.lt_of_isLE_of_lt hab.1 h'
      exact ⟨isLE_of_lt hac, .inl hac⟩
    · have hle : (cmp b.1 c.1).isLE = true := by rw [h']; rfl
      refine ⟨Std.TransCmp.isLE_trans hab.1 hle, ?_⟩
      rcases hab.2 with h | h
      · exact .inl (Std.TransCmp.lt_of_lt_of_eq h h')
      · exact .inr (tail_trans (tail_lt ht').1 h (isLE_of_lt ht'))

end

/-! ## Orders of texts -/

/-- How keys are read and compared -/
structure Reading (α ε : Type) where
  Key : Type
  read : α → Except ε Key
  cmp : Key → Key → Ordering
  Firm : Key → Prop
  soft : Soft cmp Firm

variable {α ε : Type} (o : Reading α ε)

def Reading.compare (a b : α) : Except ε Int := do
  let ka ← o.read a
  let kb ← o.read b
  return sign (o.cmp ka kb)

def Reading.FirmAt (a : α) : Prop := ∀ k, o.read a = .ok k → o.Firm k

def Reading.Le (a b : α) : Prop := ∃ ka kb, o.read a = .ok ka ∧ o.read b = .ok kb ∧ (o.cmp ka kb).isLE = true

def Reading.Lt (a b : α) : Prop := ∃ ka kb, o.read a = .ok ka ∧ o.read b = .ok kb ∧ o.cmp ka kb = .lt

variable {o} {a b c : α} {x : Int}

theorem compare_ok : o.compare a b = .ok x ↔ ∃ ka kb, o.read a = .ok ka ∧ o.read b = .ok kb ∧ x = sign (o.cmp ka kb) := by
  unfold Reading.compare
  cases ha : o.read a with
  | error e => simp [bind, Except.bind]
  | ok ka =>
    cases hb : o.read b with
    | error e => simp [bind, Except.bind]
    | ok kb => simp [bind, Except.bind, pure, Except.pure, eq_comm]

theorem compare_neg (h : o.compare a b = .ok x) : x < 0 ↔ o.Lt a b := by
  obtain ⟨ka, kb, ha, hb, rfl⟩ := (compare_ok).mp h
  constructor
  · intro hx
    refine ⟨ka, kb, ha, hb, ?_⟩
    cases hc : o.cmp ka kb <;> simp_all [sign]
  · rintro ⟨ka', kb', ha', hb', hlt⟩
    cases ha.symm.trans ha'
    cases hb.symm.trans hb'
    rw [hlt]
    decide

theorem compare_nonpos (h : o.compare a b = .ok x) : x ≤ 0 ↔ o.Le a b := by
  obtain ⟨ka, kb, ha, hb, rfl⟩ := (compare_ok).mp h
  rw [sign_nonpos]
  constructor
  · exact fun hle => ⟨ka, kb, ha, hb, hle⟩
  · rintro ⟨ka', kb', ha', hb', hle⟩
    cases ha.symm.trans ha'
    cases hb.symm.trans hb'
    exact hle

theorem compare_swap (h : o.compare a b = .ok x) : o.compare b a = .ok (-x) := by
  obtain ⟨ka, kb, ha, hb, rfl⟩ := (compare_ok).mp h
  exact (compare_ok).mpr ⟨kb, ka, hb, ha, by rw [o.soft.swap ka kb, sign_swap]⟩

theorem compare_pos (h : o.compare a b = .ok x) : 0 < x ↔ o.Lt b a := by
  rw [← compare_neg (compare_swap h)]
  omega

theorem compare_nonneg (h : o.compare a b = .ok x) : 0 ≤ x ↔ o.Le b a := by
  rw [← compare_nonpos (compare_swap h)]
  omega

theorem Reading.Le.compare (h : o.Le a b) : ∃ x, o.compare a b = .ok x ∧ x ≤ 0 := by
  obtain ⟨ka, kb, ha, hb, hle⟩ := h
  exact ⟨_, (compare_ok).mpr ⟨ka, kb, ha, hb, rfl⟩, (sign_nonpos _).mpr hle⟩

theorem Reading.Lt.compare (h : o.Lt a b) : ∃ x, o.compare a b = .ok x ∧ x < 0 := by
  obtain ⟨ka, kb, ha, hb, hlt⟩ := h
  refine ⟨_, (compare_ok).mpr ⟨ka, kb, ha, hb, rfl⟩, ?_⟩
  rw [hlt]
  decide

theorem Reading.Lt.le (h : o.Lt a b) : o.Le a b := by
  obtain ⟨ka, kb, ha, hb, hlt⟩ := h
  exact ⟨ka, kb, ha, hb, isLE_of_lt hlt⟩

theorem Reading.Lt.not_le (h : o.Lt a b) : ¬ o.Le b a := by
  rintro ⟨kb, ka, hb, ha, hle⟩
  obtain ⟨ka', kb', ha', hb', hlt⟩ := h
  cases ha.symm.trans ha'
  cases hb.symm.trans hb'
  rw [o.soft.swap ka kb, hlt] at hle
  cases hle

theorem le_or_lt (h : o.compare a b = .ok x) : o.Le a b ∨ o.Lt b a := by
  rcases le_or_gt x 0 with hx | hx
  · exact .inl ((compare_nonpos h).mp hx)
  · exact .inr ((compare_pos h).mp hx)

theorem Reading.Le.trans (hb : o.FirmAt b) (hab : o.Le a b) (hbc : o.Le b c) : o.Le a c := by
  obtain ⟨ka, kb, ha, hb', hle⟩ := hab
  obtain ⟨kb', kc, hb'', hc, hle'⟩ := hbc
  cases hb'.symm.trans hb''
  exact ⟨ka, kc, ha, hc, o.soft.trans (hb kb hb') hle hle'⟩

theorem Reading.Lt.trans (hab : o.Lt a b) (hbc : o.Lt b c) : o.Lt a c := by
  obtain ⟨ka, kb, ha, hb, hlt⟩ := hab
  obtain ⟨kb', kc, hb', hc, hlt'⟩ := hbc
  cases hb.symm.trans hb'
  exact ⟨ka, kc, ha, hc, o.soft.lt_trans hlt hlt'⟩

theorem Reading.Le.trans_lt (hab : o.Le a b) (hbc : o.Lt b c) : o.Le a c := by
  obtain ⟨ka, kb, ha, hb, hle⟩ := hab
  obtain ⟨kb', kc, hb', hc, hlt⟩ := hbc
  cases hb.symm.trans hb'
  exact ⟨ka, kc, ha, hc, o.soft.le_of_le_of_lt hle hlt⟩

theorem Reading.Le.lt (h : o.Le a b) (hne : ¬ o.Le b a) : o.Lt a b := by
  obtain ⟨ka, kb, ha, hb, hle⟩ := h
  refine ⟨ka, kb, ha, hb, ?_⟩
  cases hcmp : o.cmp ka kb with
  | lt => rfl
  | eq => exact absurd ⟨kb, ka, hb, ha, by rw [o.soft.swap ka kb, hcmp]; rfl⟩ hne
  | gt =>
    rw [hcmp] at hle
    cases hle

/-- Two that are compared to a third one are compared to each other: what is not above is below. -/
theorem lt_of_not_le (hab : o.Le a b) (hbc : o.Le b c) (h : ¬ o.Le c a) : o.Lt a c := by
  obtain ⟨ka, -, ha, -, -⟩ := hab
  obtain ⟨-, kc, -, hc, -⟩ := hbc
  refine Reading.Le.lt ⟨ka, kc, ha, hc, ?_⟩ h
  by_contra hgt
  refine h ⟨kc, ka, hc, ha, ?_⟩
  rw [o.soft.swap ka kc]
  cases hcmp : o.cmp ka kc with
  | gt => rfl
  | _ => exact absurd (by rw [hcmp]; rfl) hgt

theorem lt_of_le_of_lt (ha : o.FirmAt a) (hab : o.Le a b) (hbc : o.Lt b c) : o.Lt a c :=
  lt_of_not_le hab hbc.le fun hca => hbc.not_le (hca.trans ha hab)

theorem lt_of_lt_of_le (hc : o.FirmAt c) (hab : o.Lt a b) (hbc : o.Le b c) : o.Lt a c :=
  lt_of_not_le hab.le hbc fun hca => hab.not_le (hbc.trans hc hca)

/-! ## The running greatest -/

/-- Whether one target is above another -/
def laterBy {β : Type} (o : Reading α ε) (target : β → α) (f g : β) : Except ε Bool :=
  (o.compare (target f) (target g)).map fun x => decide (0 < x)

/-- Going through a list, what is later than the element taken so far is taken. -/
def greatest {β : Type} (later : β → β → Except ε Bool) : β → List β → Except ε β
  | best, [] => .ok best
  | best, f :: fs => do if ← later f best then greatest later f fs else greatest later best fs

section

variable {β : Type} {later : β → β → Except ε Bool} {target : β → α}

theorem greatest_step (best f : β) (fs : List β) : greatest later best (f :: fs) =
    (do if ← later f best then greatest later f fs else greatest later best fs) := rfl

/-- One step takes the new element, which is later, or keeps the one taken before. -/
theorem greatest_cons {best f m : β} {fs : List β} (h : greatest later best (f :: fs) = .ok m) :
    later f best = .ok true ∧ greatest later f fs = .ok m ∨ later f best = .ok false ∧ greatest later best fs = .ok m := by
  rw [greatest_step] at h
  cases hl : later f best with
  | error e =>
    rw [hl] at h
    cases h
  | ok took =>
    rw [hl] at h
    cases took with
    | true => exact .inl ⟨rfl, h⟩
    | false => exact .inr ⟨rfl, h⟩

theorem greatest_append (best : β) (fs gs : List β) :
    greatest later best (fs ++ gs) = (greatest later best fs).bind fun m => greatest later m gs := by
  induction fs generalizing best with
  | nil => rfl
  | cons f fs ih =>
    rw [List.cons_append, greatest_step, greatest_step]
    cases hl : later f best with
    | error e => rfl
    | ok took =>
      cases took with
      | true => exact ih f
      | false => exact ih best

theorem greatest_congr {later' : β → β → Except ε Bool} {best : β} {fs : List β}
    (h : ∀ f ∈ best :: fs, ∀ g ∈ best :: fs, later f g = later' f g) : greatest later best fs = greatest later' best fs := by
  induction fs generalizing best with
  | nil => rfl
  | cons f fs ih =>
    have hf : greatest later f fs = greatest later' f fs := ih fun x hx y hy =>
      h x (List.mem_cons_of_mem _ hx) y (List.mem_cons_of_mem _ hy)
    have hbest : greatest later best fs = greatest later' best fs := by
      have hsub : ∀ x ∈ best :: fs, x ∈ best :: f :: fs := fun x hx =>
        List.mem_cons.mpr ((List.mem_cons.mp hx).imp_right (List.mem_cons_of_mem _))
      exact ih fun x hx y hy => h x (hsub x hx) y (hsub y hy)
    rw [greatest_step, greatest_step, h f (by simp) best (by simp), hf, hbest]

/-- What is taken is the first element with the highest target: those before it are below it, and none after it is above. -/
structure FirstHighest (o : Reading α ε) (target : β → α) (fs : List β) (m : β) (before after : List β) : Prop where
  split : fs = before ++ m :: after
  below : ∀ f ∈ before, o.Lt (target f) (target m)
  upTo : ∀ f ∈ after, o.Le (target f) (target m)

theorem later_true {f g : β} (h : laterBy o target f g = .ok true) : o.Lt (target g) (target f) := by
  rw [laterBy] at h
  cases hc : o.compare (target f) (target g) with
  | error e =>
    rw [hc] at h
    cases h
  | ok x =>
    rw [hc] at h
    have hx : 0 < x := by simpa [Except.map] using h
    exact (compare_pos hc).mp hx

theorem later_false {f g : β} (h : laterBy o target f g = .ok false) : o.Le (target f) (target g) := by
  rw [laterBy] at h
  cases hc : o.compare (target f) (target g) with
  | error e =>
    rw [hc] at h
    cases h
  | ok x =>
    rw [hc] at h
    have hx : x ≤ 0 := by simpa [Except.map] using h
    exact (compare_nonpos hc).mp hx

theorem greatest_mem {best m : β} {fs : List β} (h : greatest later best fs = .ok m) : m ∈ best :: fs := by
  induction fs generalizing best with
  | nil =>
    cases h
    exact List.mem_cons_self
  | cons f fs ih =>
    rcases greatest_cons h with ⟨-, h⟩ | ⟨-, h⟩
    · exact List.mem_cons_of_mem _ (ih h)
    · rcases List.mem_cons.mp (ih h) with rfl | hm
      · exact List.mem_cons_self
      · exact List.mem_cons_of_mem _ (List.mem_cons_of_mem _ hm)

/-- The target that is taken is at least the first one. -/
theorem greatest_ge {best m : β} {fs : List β} (h : greatest (laterBy o target) best fs = .ok m) :
    m = best ∨ o.Lt (target best) (target m) := by
  induction fs generalizing best with
  | nil =>
    cases h
    exact .inl rfl
  | cons f fs ih =>
    rcases greatest_cons h with ⟨hl, h⟩ | ⟨-, h⟩
    · have hbest := later_true hl
      rcases ih h with rfl | hm
      · exact .inr hbest
      · exact .inr (hbest.trans hm)
    · exact ih h

/-- No target is above the one that is taken, firm or not. -/
theorem greatest_upTo {best m : β} {fs : List β} (h : greatest (laterBy o target) best fs = .ok m) :
    ∀ f ∈ fs, o.Le (target f) (target m) := by
  induction fs generalizing best with
  | nil => simp
  | cons f fs ih =>
    intro g hg
    rcases greatest_cons h with ⟨hl, h⟩ | ⟨hl, h⟩
    · rcases List.mem_cons.mp hg with rfl | hg
      · rcases greatest_ge h with rfl | hm
        · obtain ⟨-, kf, -, hf, -⟩ := later_true hl
          exact ⟨kf, kf, hf, hf, o.soft.isLE_self kf⟩
        · exact hm.le
      · exact ih h g hg
    · rcases List.mem_cons.mp hg with rfl | hg
      · rcases greatest_ge h with rfl | hm
        · exact later_false hl
        · exact (later_false hl).trans_lt hm
      · exact ih h g hg

theorem greatest_first {best m : β} {fs : List β} (hfirm : ∀ f ∈ best :: fs, o.FirmAt (target f))
    (h : greatest (laterBy o target) best fs = .ok m) :
    ∃ before after, FirstHighest o target (best :: fs) m before after := by
  induction fs generalizing best with
  | nil =>
    cases h
    exact ⟨[], [], rfl, by simp, by simp⟩
  | cons f fs ih =>
    rcases greatest_cons h with ⟨hl, hrest⟩ | ⟨hl, hrest⟩
    · obtain ⟨before, after, hm⟩ := ih (fun g hg => hfirm g (List.mem_cons_of_mem _ hg)) hrest
      refine ⟨best :: before, after, by rw [hm.split]; rfl, fun g hg => ?_, hm.upTo⟩
      rcases List.mem_cons.mp hg with rfl | hg
      · have hgf := later_true hl
        rcases greatest_ge hrest with hmf | hlt
        · exact hmf ▸ hgf
        · exact hgf.trans hlt
      · exact hm.below g hg
    · have hbest : ∀ g ∈ best :: fs, o.FirmAt (target g) := fun g hg =>
        hfirm g (List.mem_cons.mpr ((List.mem_cons.mp hg).imp_right (List.mem_cons_of_mem _)))
      obtain ⟨before, after, hm⟩ := ih hbest hrest
      have hf := later_false hl
      cases before with
      | nil =>
        -- the element taken before is the one that stays
        obtain ⟨rfl, rfl⟩ := List.cons.inj hm.split
        refine ⟨[], f :: fs, rfl, by simp, fun g hg => ?_⟩
        rcases List.mem_cons.mp hg with rfl | hg
        · exact hf
        · exact hm.upTo g hg
      | cons b before =>
        obtain ⟨rfl, hfs⟩ := List.cons.inj hm.split
        refine ⟨best :: f :: before, after, by rw [hfs]; rfl, fun g hg => ?_, hm.upTo⟩
        have hlt := hm.below best List.mem_cons_self
        rcases List.mem_cons.mp hg with rfl | hg
        · exact hlt
        · rcases List.mem_cons.mp hg with rfl | hg
          · exact lt_of_le_of_lt (hfirm g (by simp)) hf hlt
          · exact hm.below g (List.mem_cons_of_mem _ hg)

theorem FirstHighest.mem {fs before after : List β} {m : β} (h : FirstHighest o target fs m before after) : m ∈ fs := by
  rw [h.split]
  simp

theorem FirstHighest.not_longer {fs before after before' after' : List β} {m m' : β}
    (h : FirstHighest o target fs m before after) (h' : FirstHighest o target fs m' before' after') {cs : List β} {c : β}
    (hlong : before' = before ++ c :: cs) : False := by
  have hsplit := h.split.symm.trans h'.split
  rw [hlong, List.append_assoc] at hsplit
  obtain ⟨rfl, hafter⟩ := List.cons.inj (List.append_cancel_left hsplit)
  exact (h'.below m (by simp [hlong])).not_le (h.upTo m' (by simp [hafter]))

/-- There is one first element with the highest target. -/
theorem FirstHighest.unique {fs before after before' after' : List β} {m m' : β}
    (h : FirstHighest o target fs m before after) (h' : FirstHighest o target fs m' before' after') : m = m' := by
  rcases List.append_eq_append_iff.mp (h.split.symm.trans h'.split) with ⟨cs, hbefore, hrest⟩ | ⟨cs, hbefore, hrest⟩
  · cases cs with
    | nil => exact (List.cons.inj hrest).1
    | cons c cs => exact (h.not_longer h' hbefore).elim
  · cases cs with
    | nil => exact (List.cons.inj hrest).1.symm
    | cons c cs => exact (h'.not_longer h hbefore).elim

end

end KeyOrder
