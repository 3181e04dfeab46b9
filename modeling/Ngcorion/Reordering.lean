import Mathlib.Data.Finset.Card
import Mathlib.Data.Finset.Dedup
import Mathlib.Data.List.TakeWhile
import Ngcorion.FirstBy

/-!
# Answers that may come in any order

What is found first in a list, and what is found last, when the list may be in any order: the possible
answers, and when there is only one. The first known element among the first few different ones depends
on how many different ones stand before it.
-/
namespace Reordering

variable {α β δ : Type}

/-! ## The first answer -/

theorem perm_first {l : List δ} {d : δ} (hd : d ∈ l) : ∃ rest, (d :: rest).Perm l := by
  obtain ⟨a, b, rfl⟩ := List.append_of_mem hd
  exact ⟨a ++ b, List.perm_middle.symm⟩

theorem perm_last {l : List δ} {d : δ} (hd : d ∈ l) : ∃ rest, (rest ++ [d]).Perm l := by
  obtain ⟨rest, h⟩ := perm_first hd
  exact ⟨rest, List.perm_append_singleton d rest |>.trans h⟩

/-- The first answer has a property in every order when every answer has it. -/
theorem findSome_every (f : δ → Option β) (l : List δ) (Q : β → Prop) :
    (∀ σ : List δ, σ.Perm l → ∀ x, σ.findSome? f = some x → Q x) ↔ ∀ d ∈ l, ∀ x, f d = some x → Q x := by
  constructor
  · intro h d hd x hx
    obtain ⟨rest, hperm⟩ := perm_first hd
    exact h (d :: rest) hperm x (by rw [List.findSome?_cons, hx])
  · intro h σ hσ x hx
    obtain ⟨d, hd, hx⟩ := List.exists_of_findSome?_eq_some hx
    exact h d (hσ.subset hd) x hx

theorem isSome_findSome_perm (f : δ → Option β) {σ τ : List δ} (h : σ.Perm τ) :
    (σ.findSome? f).isSome = (τ.findSome? f).isSome := by
  rw [Bool.eq_iff_iff, List.findSome?_isSome_iff, List.findSome?_isSome_iff]
  simp only [h.mem_iff]

theorem none_or_some {x y : Option β} (h : x.isSome = y.isSome) :
    (x = none ∧ y = none) ∨ ∃ a b, x = some a ∧ y = some b := by
  cases x with
  | none => exact Or.inl ⟨rfl, Option.isNone_iff_eq_none.mp (by simpa using h.symm)⟩
  | some a =>
    obtain ⟨b, hb⟩ := Option.isSome_iff_exists.mp h.symm
    exact Or.inr ⟨a, b, rfl, hb⟩

/-- The first answer is the same in every order when there are no two answers. -/
theorem findSome_stable (f : δ → Option β) (l : List δ) :
    (∀ σ τ : List δ, σ.Perm l → τ.Perm l → σ.findSome? f = τ.findSome? f) ↔
      ∀ d ∈ l, ∀ e ∈ l, ∀ x y, f d = some x → f e = some y → x = y := by
  constructor
  · intro h d hd e he x y hx hy
    obtain ⟨restD, hpermD⟩ := perm_first hd
    obtain ⟨restE, hpermE⟩ := perm_first he
    have hsame := h _ _ hpermD hpermE
    rw [List.findSome?_cons, List.findSome?_cons, hx, hy] at hsame
    exact Option.some.inj hsame
  · intro h σ τ hσ hτ
    cases hx : σ.findSome? f with
    | none =>
      rw [List.findSome?_eq_none_iff] at hx
      exact (List.findSome?_eq_none_iff.mpr fun d hd => hx d (hσ.symm.subset (hτ.subset hd))).symm
    | some x =>
      obtain ⟨d, hd, hx⟩ := List.exists_of_findSome?_eq_some hx
      cases hy : τ.findSome? f with
      | none =>
        rw [List.findSome?_eq_none_iff.mp hy d (hτ.symm.subset (hσ.subset hd))] at hx
        cases hx
      | some y =>
        obtain ⟨e, he, hy⟩ := List.exists_of_findSome?_eq_some hy
        rw [h d (hσ.subset hd) e (hτ.subset he) x y hx hy]

/-! ## The last answer -/

/-- Groups of elements are heard one after the other, the first group last, and those of a group in any order: the
last one with a property can be this one. -/
def HeardLast (P : δ → Bool) : List (List δ) → Option δ → Prop
  | [], x => x = none
  | g :: earlier, x => if ∃ d ∈ g, P d = true then ∃ d ∈ g, P d = true ∧ x = some d else HeardLast P earlier x

theorem last_append (P : δ → Bool) (a b : List δ) :
    ((a ++ b).filter P).getLast? = ((b.filter P).getLast?).or ((a.filter P).getLast?) := by
  rw [List.filter_append, List.getLast?_append]

theorem heardLast_of_last (P : δ → Bool) (groups : List (List δ)) :
    HeardLast P groups ((groups.reverse.flatten.filter P).getLast?) := by
  induction groups with
  | nil => rfl
  | cons g earlier ih =>
    have hflat : (g :: earlier).reverse.flatten = earlier.reverse.flatten ++ g := by simp
    rw [hflat, last_append, HeardLast]
    split
    · next hg =>
      obtain ⟨d, hd, hP⟩ := hg
      cases hlast : (g.filter P).getLast? with
      | none =>
        rw [List.getLast?_eq_none_iff, List.filter_eq_nil_iff] at hlast
        exact absurd hP (hlast d hd)
      | some e =>
        have he := List.mem_filter.mp (List.mem_of_getLast? hlast)
        exact ⟨e, he.1, he.2, rfl⟩
    · next hg =>
      have hnone : g.filter P = [] := List.filter_eq_nil_iff.mpr fun d hd hP => hg ⟨d, hd, hP⟩
      simpa [hnone] using ih

theorem last_of_heardLast {P : δ → Bool} {groups : List (List δ)} {x : Option δ} (h : HeardLast P groups x) :
    ∃ groups', List.Forall₂ List.Perm groups' groups ∧ (groups'.reverse.flatten.filter P).getLast? = x := by
  induction groups with
  | nil => exact ⟨[], .nil, h.symm⟩
  | cons g earlier ih =>
    rw [HeardLast] at h
    split at h
    · obtain ⟨d, hd, hP, rfl⟩ := h
      obtain ⟨rest, hperm⟩ := perm_last hd
      refine ⟨(rest ++ [d]) :: earlier, .cons hperm (List.forall₂_same.mpr fun _ _ => .refl _), ?_⟩
      simp [hP]
    · next hg =>
      obtain ⟨groups', hperm, hlast⟩ := ih h
      have hnone : g.filter P = [] := List.filter_eq_nil_iff.mpr fun d hd hP => hg ⟨d, hd, hP⟩
      have hflat : (g :: groups').reverse.flatten = groups'.reverse.flatten ++ g := by simp
      exact ⟨g :: groups', .cons (.refl g) hperm, by rw [hflat, last_append, hnone, hlast]; rfl⟩

/-! ## The first known element among the first different ones -/

section
variable (known : α → Option β)

/-- What stands before the first known element -/
def before (l : List α) : List α := l.takeWhile fun a => (known a).isNone

theorem before_append_of_unknown {a b : List α} (ha : ∀ x ∈ a, known x = none) :
    before known (a ++ b) = a ++ before known b := by
  rw [before, List.takeWhile_append_of_pos fun x hx => by simp [ha x hx]]
  rfl

theorem before_append_of_known {a b : List α} (ha : (a.findSome? known).isSome) : before known (a ++ b) = before known a := by
  induction a with
  | nil => simp at ha
  | cons x a ih =>
    cases hx : known x with
    | some y => simp [before, hx]
    | none =>
      have hrest : (a.findSome? known).isSome := by simpa [List.findSome?_cons, hx] using ha
      have hi := ih hrest
      simp only [before] at hi
      simp [before, hx, hi]

variable [DecidableEq α]

omit known in
theorem length_firstBy (l : List α) : (FirstBy.firstBy id [] l).length = l.toFinset.card := by
  have hnodup : (FirstBy.firstBy id [] l).Nodup := by simpa using @FirstBy.nodup_firstBy α α _ id [] l
  rw [← List.toFinset_card_of_nodup hnodup]
  congr 1
  ext a
  simp only [List.mem_toFinset]
  exact ⟨fun h => (FirstBy.mem_of_mem_firstBy h).1, fun h => FirstBy.mem_firstBy h (by simp) fun _ _ heq => heq⟩

/-- Among the first few different elements, the first known one is found when there is room for it. -/
theorem findSome_take_firstBy (n : Nat) (l : List α) :
    ((FirstBy.firstBy id [] l).take n).findSome? known =
      if (before known l).toFinset.card < n then l.findSome? known else none := by
  have hunknown : ∀ a ∈ before known l, known a = none := by
    intro a ha
    simpa using List.mem_takeWhile_imp ha
  have hsplit : l = before known l ++ l.dropWhile fun a => (known a).isNone := List.takeWhile_append_dropWhile.symm
  have hfront : ∀ m, ((FirstBy.firstBy id [] (before known l)).take m).findSome? known = none := by
    intro m
    rw [List.findSome?_eq_none_iff]
    exact fun a ha => hunknown a (FirstBy.mem_of_mem_firstBy (List.mem_of_mem_take ha)).1
  cases hrest : l.dropWhile fun a => (known a).isNone with
  | nil =>
    rw [hrest, List.append_nil] at hsplit
    have hnone : l.findSome? known = none := List.findSome?_eq_none_iff.mpr fun a ha => hunknown a (hsplit ▸ ha)
    rw [hnone, ite_self, hsplit]
    exact hfront n
  | cons a rest =>
    have ha : ∃ b, known a = some b := by
      have hhead := List.head?_dropWhile_not (fun a => (known a).isNone) l
      rw [hrest] at hhead
      exact Option.isSome_iff_exists.mp (by simpa using hhead)
    obtain ⟨b, hb⟩ := ha
    rw [hrest] at hsplit
    have hfound : l.findSome? known = some b := by
      rw [hsplit, List.findSome?_append, List.findSome?_eq_none_iff.mpr hunknown, List.findSome?_cons, hb]
      rfl
    have hnew : id a ∉ [] ++ (FirstBy.firstBy id [] (before known l)).map id := by
      intro hmem
      have hin : a ∈ FirstBy.firstBy id [] (before known l) := by simpa using hmem
      rw [hunknown a (FirstBy.mem_of_mem_firstBy hin).1] at hb
      cases hb
    have hlist : FirstBy.firstBy id [] l = FirstBy.firstBy id [] (before known l) ++
        a :: FirstBy.firstBy id (id a :: ([] ++ (FirstBy.firstBy id [] (before known l)).map id)) rest := by
      conv_lhs => rw [hsplit, FirstBy.firstBy_append, FirstBy.firstBy, if_neg hnew]
    rw [hlist, List.take_append, List.findSome?_append, hfront, hfound, length_firstBy]
    split
    · next hroom =>
      obtain ⟨k, hk⟩ : ∃ k, n - (before known l).toFinset.card = k + 1 := ⟨n - (before known l).toFinset.card - 1, by omega⟩
      rw [hk, List.take_succ_cons, List.findSome?_cons, hb]
      rfl
    · next hroom =>
      have hzero : n - (before known l).toFinset.card = 0 := by omega
      rw [hzero, List.take_zero]
      rfl

end

end Reordering
