import Mathlib.Data.List.Nodup
import Mathlib.Data.List.Sort
import Mathlib.Data.List.Dedup

/-!
# Selections that do not depend on the path

A rule keeps some items of a list. When an item that is kept is also kept in each part of the list, and leaving out what is not
kept changes no choice, it does not matter whether the rest is dropped now and then or once at the end. Choosing the first or the
last item of each of the highest groups is such a rule.
-/
namespace Selection

variable {α : Type}

structure PathIndependent (keep : List α → α → Prop) : Prop where
  heritage : ∀ {part whole : List α} {x : α}, whole.Nodup → part.Sublist whole → x ∈ part → keep whole x → keep part x
  outcast : ∀ {part whole : List α} {x : α}, whole.Nodup → part.Sublist whole → (∀ y ∈ whole, keep whole y → y ∈ part) →
    x ∈ part → keep part x → keep whole x

theorem PathIndependent.or {keep keep' : List α → α → Prop} (h : PathIndependent keep) (h' : PathIndependent keep') :
    PathIndependent fun l x => keep l x ∨ keep' l x where
  heritage hnodup hpart hx hkeep := hkeep.imp (h.heritage hnodup hpart hx) (h'.heritage hnodup hpart hx)
  outcast hnodup hpart hall hx hkeep :=
    hkeep.imp (h.outcast hnodup hpart (fun y hy hkept => hall y hy (.inl hkept)) hx)
      (h'.outcast hnodup hpart (fun y hy hkept => hall y hy (.inr hkept)) hx)

section

variable {keep : List α → α → Prop}

/-- A part that has every item the whole list keeps -/
structure Covers (keep : List α → α → Prop) (part whole : List α) : Prop where
  sublist : part.Sublist whole
  kept : ∀ x ∈ whole, keep whole x → x ∈ part

theorem Covers.refl (keep : List α → α → Prop) (l : List α) : Covers keep l l := ⟨List.Sublist.refl l, fun _ hx _ => hx⟩

theorem Covers.cons (h : PathIndependent keep) {part whole : List α} {x : α} (hnodup : (x :: whole).Nodup)
    (hc : Covers keep part whole) : Covers keep (x :: part) (x :: whole) where
  sublist := hc.sublist.cons_cons x
  kept y hy hkeep := by
    rcases List.mem_cons.mp hy with rfl | hy
    · exact List.mem_cons_self
    · exact List.mem_cons_of_mem _ (hc.kept y hy (h.heritage hnodup (List.sublist_cons_self x whole) hy hkeep))

variable [∀ l, DecidablePred (keep l)]

def sweep (keep : List α → α → Prop) [∀ l, DecidablePred (keep l)] (l : List α) : List α := l.filter fun x => keep l x

/-- What is left when items are added at the front, each addition possibly followed by a sweep -/
def survivors (keep : List α → α → Prop) [∀ l, DecidablePred (keep l)] : List (α × Bool) → List α → List α
  | [], l => l
  | (x, swept) :: steps, l => survivors keep steps (if swept then sweep keep (x :: l) else x :: l)

/-- All items, the last one at the front -/
def history (steps : List (α × Bool)) (l : List α) : List α := (steps.map Prod.fst).reverse ++ l

theorem Covers.sweep (h : PathIndependent keep) {part whole : List α} (hnodup : whole.Nodup) (hc : Covers keep part whole) :
    Covers keep (sweep keep part) whole where
  sublist := List.filter_sublist.trans hc.sublist
  kept x hx hkeep := by
    have hpart := hc.kept x hx hkeep
    exact List.mem_filter.mpr ⟨hpart, decide_eq_true (h.heritage hnodup hc.sublist hpart hkeep)⟩

/-- A sweep of a part that covers the list leaves what a sweep of the list leaves. -/
theorem Covers.sweep_eq (h : PathIndependent keep) {part whole : List α} (hnodup : whole.Nodup) (hc : Covers keep part whole) :
    Selection.sweep keep part = Selection.sweep keep whole := by
  have hsame : Selection.sweep keep part = part.filter fun x => keep whole x := by
    refine List.filter_congr fun x hx => decide_eq_decide.mpr ⟨h.outcast hnodup hc.sublist hc.kept hx, ?_⟩
    exact h.heritage hnodup hc.sublist hx
  have hsub : (part.filter fun x => keep whole x).Sublist (Selection.sweep keep whole) := hc.sublist.filter _
  have hperm : (part.filter fun x => keep whole x).Perm (Selection.sweep keep whole) := by
    refine (List.perm_ext_iff_of_nodup (hnodup.sublist (List.filter_sublist.trans hc.sublist)) (hnodup.filter _)).mpr fun x => ?_
    constructor
    · exact fun hx => hsub.subset hx
    · intro hx
      obtain ⟨hx, hkeep⟩ := List.mem_filter.mp hx
      exact List.mem_filter.mpr ⟨hc.kept x hx (of_decide_eq_true hkeep), hkeep⟩
  rw [hsame]
  exact hsub.eq_of_length hperm.length_eq

theorem Covers.survivors (h : PathIndependent keep) (steps : List (α × Bool)) {part whole : List α}
    (hnodup : (history steps whole).Nodup) (hc : Covers keep part whole) :
    Covers keep (survivors keep steps part) (history steps whole) := by
  induction steps generalizing part whole with
  | nil => exact hc
  | cons step steps ih =>
    obtain ⟨x, swept⟩ := step
    have hhistory : history ((x, swept) :: steps) whole = history steps (x :: whole) := by simp [history]
    rw [hhistory] at hnodup ⊢
    have hcons := hc.cons h (hnodup.sublist (List.sublist_append_right _ _))
    cases swept with
    | false => exact ih hnodup hcons
    | true => exact ih hnodup (hcons.sweep h (hnodup.sublist (List.sublist_append_right _ _)))

/-- It does not matter when the list is swept. -/
theorem sweep_survivors (h : PathIndependent keep) (steps : List (α × Bool)) {l : List α} (hnodup : (history steps l).Nodup) :
    sweep keep (survivors keep steps l) = sweep keep (history steps l) :=
  ((Covers.refl keep l).survivors h steps hnodup).sweep_eq h hnodup

theorem sweep_sweep (h : PathIndependent keep) {l : List α} (hnodup : l.Nodup) :
    sweep keep (sweep keep l) = sweep keep l :=
  ((Covers.refl keep l).sweep h hnodup).sweep_eq h hnodup

end

/-! ## The highest groups -/

section

variable {κ : Type} [LinearOrder κ]

theorem mem_take_descending {l : List κ} (h : l.Pairwise (· > ·)) {k : κ} {n : Nat} :
    k ∈ l.take n ↔ k ∈ l ∧ (l.filter (k < ·)).length < n := by
  induction l generalizing n with
  | nil => simp
  | cons a l ih =>
    obtain ⟨ha, hl⟩ := List.pairwise_cons.mp h
    cases n with
    | zero => simp
    | succ n =>
      rw [List.take_succ_cons, List.mem_cons, List.mem_cons, ih hl]
      by_cases hk : k = a
      · subst hk
        have hnone : l.filter (k < ·) = [] := by
          rw [List.filter_eq_nil_iff]
          exact fun b hb hlt => lt_asymm (ha b hb) (of_decide_eq_true hlt)
        simp [hnone]
      · by_cases hmem : k ∈ l
        · simp [hk, hmem, ha k hmem]
        · simp [hk, hmem]

variable (key : α → κ)

/-- The keys of a list, the highest first -/
def keysDescending (l : List α) : List κ := (l.map key).dedup.insertionSort (· ≥ ·)

theorem mem_keysDescending {l : List α} {k : κ} : k ∈ keysDescending key l ↔ ∃ x ∈ l, key x = k := by
  simp [keysDescending]

theorem keysDescending_pairwise (l : List α) : (keysDescending key l).Pairwise (· > ·) := by
  have hsorted : (keysDescending key l).Pairwise (· ≥ ·) := List.pairwise_insertionSort _ _
  have hnodup : (keysDescending key l).Nodup := (List.perm_insertionSort _ _).nodup_iff.mpr (List.nodup_dedup _)
  refine (hsorted.and hnodup).imp fun hab => lt_of_le_of_ne hab.1 hab.2.symm

/-- The first or the last member of a group -/
def chosen (first : Bool) (members : List α) : Option α := if first then members.head? else members.getLast?

/-- An item is chosen when its group is one of the highest ones, and it is the first or the last of it. -/
def Picked (first : Bool) (limit : Nat) (l : List α) (x : α) : Prop :=
  key x ∈ (keysDescending key l).take limit ∧ chosen first (l.filter fun y => key y = key x) = some x

theorem chosen_mem {first : Bool} {members : List α} {x : α} (h : chosen first members = some x) : x ∈ members := by
  cases first with
  | false => exact List.mem_of_getLast? h
  | true => exact List.mem_of_head? h

theorem chosen_isSome {first : Bool} {members : List α} {x : α} (h : x ∈ members) : ∃ y, chosen first members = some y := by
  obtain ⟨a, l, rfl⟩ := List.exists_cons_of_ne_nil (List.ne_nil_of_mem h)
  cases first with
  | false =>
    refine ⟨(a :: l).getLast (List.cons_ne_nil a l), ?_⟩
    rw [chosen, if_neg (by simp)]
    exact List.getLast?_eq_some_getLast (List.cons_ne_nil a l)
  | true => exact ⟨a, rfl⟩

theorem head?_of_sublist {part whole : List α} {x : α} (hnodup : whole.Nodup) (hpart : part.Sublist whole) (hx : x ∈ part)
    (h : whole.head? = some x) : part.head? = some x := by
  cases hpart with
  | slnil => cases hx
  | cons a hrest =>
    obtain rfl : a = x := by simpa using h
    exact absurd (hrest.subset hx) (List.nodup_cons.mp hnodup).1
  | cons_cons a hrest => exact h

/-- What is chosen of the whole is chosen of each part that has it. -/
theorem chosen_of_sublist {first : Bool} {part whole : List α} {x : α} (hnodup : whole.Nodup) (hpart : part.Sublist whole)
    (hx : x ∈ part) (h : chosen first whole = some x) : chosen first part = some x := by
  cases first with
  | true => exact head?_of_sublist hnodup hpart hx h
  | false =>
    unfold chosen at h ⊢
    rw [if_neg (by simp)] at h ⊢
    rw [← List.head?_reverse] at h ⊢
    exact head?_of_sublist (List.nodup_reverse.mpr hnodup) hpart.reverse (List.mem_reverse.mpr hx) h

/-- A part has no more groups above a group. -/
theorem above_le {part whole : List α} (hpart : part.Sublist whole) (k : κ) :
    ((keysDescending key part).filter (k < ·)).length ≤ ((keysDescending key whole).filter (k < ·)).length := by
  have hnodup : ((keysDescending key part).filter (k < ·)).Nodup := by
    refine List.Nodup.filter _ ?_
    exact (keysDescending_pairwise key part).imp fun h => (ne_of_gt h)
  refine (List.subperm_of_subset hnodup fun j hj => ?_).length_le
  obtain ⟨hmem, hlt⟩ := List.mem_filter.mp hj
  obtain ⟨x, hx, rfl⟩ := (mem_keysDescending key).mp hmem
  exact List.mem_filter.mpr ⟨(mem_keysDescending key).mpr ⟨x, hpart.subset hx, rfl⟩, hlt⟩

theorem picked_exists {first : Bool} {limit : Nat} {l : List α} {k : κ} (hk : k ∈ (keysDescending key l).take limit) :
    ∃ x ∈ l, key x = k ∧ Picked key first limit l x := by
  obtain ⟨x, hx, rfl⟩ := (mem_keysDescending key).mp (List.mem_of_mem_take hk)
  obtain ⟨y, hy⟩ := chosen_isSome (List.mem_filter.mpr ⟨hx, decide_eq_true rfl⟩ : x ∈ l.filter fun y => key y = key x)
  obtain ⟨hmem, hkey⟩ := List.mem_filter.mp (chosen_mem hy)
  have hkey := of_decide_eq_true hkey
  exact ⟨y, hmem, hkey, by rwa [hkey], by rwa [hkey]⟩

theorem picked_pathIndependent (first : Bool) (limit : Nat) : PathIndependent (Picked key first limit) where
  heritage := by
    rintro part whole x hnodup hpart hx ⟨htop, hchosen⟩
    rw [mem_take_descending (keysDescending_pairwise key whole)] at htop
    refine ⟨?_, ?_⟩
    · rw [mem_take_descending (keysDescending_pairwise key part)]
      exact ⟨(mem_keysDescending key).mpr ⟨x, hx, rfl⟩, lt_of_le_of_lt (above_le key hpart _) htop.2⟩
    · exact chosen_of_sublist (hnodup.filter _) (hpart.filter _) (List.mem_filter.mpr ⟨hx, decide_eq_true rfl⟩) hchosen
  outcast := by
    rintro part whole x hnodup hpart hall hx ⟨htop, hchosen⟩
    -- each of the highest groups has its choice in the part, so no lower group is among the highest of the part
    have hkeys : ∀ k ∈ (keysDescending key whole).take limit, k ∈ keysDescending key part := by
      intro k hk
      obtain ⟨y, hy, hkey, hpicked⟩ := picked_exists key hk
      exact (mem_keysDescending key).mpr ⟨y, hall y hy hpicked, hkey⟩
    have hmem : key x ∈ (keysDescending key whole).take limit := by
      by_contra hnot
      have hpairwise := keysDescending_pairwise key whole
      have hwhole : key x ∈ keysDescending key whole := (mem_keysDescending key).mpr ⟨x, hpart.subset hx, rfl⟩
      rw [← List.take_append_drop limit (keysDescending key whole)] at hwhole hpairwise
      have hdrop := (List.mem_append.mp hwhole).resolve_left hnot
      have hlength : ((keysDescending key whole).take limit).length = limit := by
        have hpos := List.length_pos_of_mem hdrop
        rw [List.length_drop] at hpos
        rw [List.length_take]
        omega
      rw [mem_take_descending (keysDescending_pairwise key part)] at htop
      have hnodup' : ((keysDescending key whole).take limit).Nodup := (List.pairwise_append.mp hpairwise).1.imp fun h => ne_of_gt h
      have hsub : (keysDescending key whole).take limit ⊆ (keysDescending key part).filter (key x < ·) := fun k hk =>
        List.mem_filter.mpr ⟨hkeys k hk, decide_eq_true ((List.pairwise_append.mp hpairwise).2.2 k hk (key x) hdrop)⟩
      have hle := (List.subperm_of_subset hnodup' hsub).length_le
      omega
    refine ⟨hmem, ?_⟩
    obtain ⟨y, hy, hkey, hpicked⟩ := picked_exists key hmem
    have hpart' := chosen_of_sublist (hnodup.filter _) (hpart.filter _)
      (List.mem_filter.mpr ⟨hall y hy hpicked, decide_eq_true rfl⟩) hpicked.2
    rw [hkey, hchosen] at hpart'
    rw [Option.some.inj hpart']
    exact hpicked.2

/-- The first item of a list is chosen when no group is above its own. -/
theorem picked_head {limit : Nat} {l : List α} {x : α} (hlimit : 0 < limit) (htop : ∀ y ∈ l, key y ≤ key x)
    (hfirst : l.head? = some x) : Picked key true limit l x := by
  obtain ⟨t, rfl⟩ : ∃ t, l = x :: t := by
    cases l with
    | nil => cases hfirst
    | cons a t => exact ⟨t, by rw [Option.some.inj hfirst]⟩
  constructor
  · rw [mem_take_descending (keysDescending_pairwise key _)]
    have hnone : (keysDescending key (x :: t)).filter (key x < ·) = [] := by
      rw [List.filter_eq_nil_iff]
      intro k hk hlt
      obtain ⟨y, hy, rfl⟩ := (mem_keysDescending key).mp hk
      exact not_lt_of_ge (htop y hy) (of_decide_eq_true hlt)
    exact ⟨(mem_keysDescending key).mpr ⟨x, List.mem_cons_self, rfl⟩, by rwa [hnone]⟩
  · simp [chosen]

end

end Selection
