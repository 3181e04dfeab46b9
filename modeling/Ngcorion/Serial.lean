import Mathlib.Data.List.Nodup
import Mathlib.Data.List.Perm.Subperm
import Mathlib.Tactic.Common

/-!
# Tables with a serial key

Every row of a table has the number that the table drew for it. No number is drawn
twice, also after its row is gone.
-/
namespace Serial

variable {α : Type}

/-- Elements with keys of their own are at most as many as the elements of another list that
have these keys. -/
theorem countP_le_countP {β κ : Type} {f : α → κ} {g : β → κ} {as : List α} {bs : List β} {p : α → Bool} {q : β → Bool}
    (hnodup : (as.map f).Nodup) (h : ∀ a ∈ as, p a = true → ∃ b ∈ bs, q b = true ∧ g b = f a) :
    as.countP p ≤ bs.countP q := by
  have hkeys : ((as.filter p).map f).Nodup := hnodup.sublist (List.filter_sublist.map f)
  have hsubset : (as.filter p).map f ⊆ (bs.filter q).map g := by
    intro k hk
    obtain ⟨a, ha, rfl⟩ := List.mem_map.mp hk
    obtain ⟨ha, hpa⟩ := List.mem_filter.mp ha
    obtain ⟨b, hb, hqb, hkey⟩ := h a ha hpa
    exact List.mem_map.mpr ⟨b, List.mem_filter.mpr ⟨hb, hqb⟩, hkey⟩
  have hlength := (hkeys.subperm hsubset).length_le
  simpa [List.countP_eq_length_filter] using hlength

structure Table (α : Type) where
  rows : List (Nat × α)
  next : Nat
  fresh : ∀ e ∈ rows, e.1 < next
  nodup : (rows.map Prod.fst).Nodup

namespace Table

variable (t : Table α)

def insert (a : α) : Table α where
  rows := t.rows ++ [(t.next, a)]
  next := t.next + 1
  fresh e he := by
    rcases List.mem_append.mp he with he | he
    · exact Nat.lt_succ_of_lt (t.fresh e he)
    · simp [List.mem_singleton.mp he]
  nodup := by
    rw [List.map_append, List.nodup_append]
    refine ⟨t.nodup, by simp, ?_⟩
    intro i hi j hj heq
    obtain ⟨e, he, rfl⟩ := List.mem_map.mp hi
    have := t.fresh e he
    simp only [List.map_cons, List.map_nil, List.mem_singleton] at hj
    omega

def modify (f : Nat → α → α) : Table α where
  rows := t.rows.map (fun e => (e.1, f e.1 e.2))
  next := t.next
  fresh e he := by
    obtain ⟨e', he', rfl⟩ := List.mem_map.mp he
    exact t.fresh e' he'
  nodup := by
    have hfst : Prod.fst ∘ (fun e : Nat × α => (e.1, f e.1 e.2)) = Prod.fst := by
      funext e
      rfl
    rw [List.map_map, hfst]
    exact t.nodup

def keep (p : Nat → α → Bool) : Table α where
  rows := t.rows.filter (fun e => p e.1 e.2)
  next := t.next
  fresh e he := t.fresh e (List.mem_filter.mp he).1
  nodup := t.nodup.sublist (List.filter_sublist.map Prod.fst)

variable {t} {e : Nat × α}

@[simp] theorem next_insert (a : α) : (t.insert a).next = t.next + 1 := rfl
@[simp] theorem next_modify (f : Nat → α → α) : (t.modify f).next = t.next := rfl
@[simp] theorem next_keep (p : Nat → α → Bool) : (t.keep p).next = t.next := rfl

@[simp] theorem mem_insert {a : α} : e ∈ (t.insert a).rows ↔ e ∈ t.rows ∨ e = (t.next, a) := by
  simp [insert]

theorem mem_modify {f : Nat → α → α} : e ∈ (t.modify f).rows ↔ ∃ a, (e.1, a) ∈ t.rows ∧ f e.1 a = e.2 := by
  constructor
  · intro he
    obtain ⟨e', he', rfl⟩ := List.mem_map.mp he
    exact ⟨e'.2, he', rfl⟩
  · rintro ⟨a, ha, heq⟩
    exact List.mem_map.mpr ⟨(e.1, a), ha, Prod.ext rfl heq⟩

@[simp] theorem mem_keep {p : Nat → α → Bool} : e ∈ (t.keep p).rows ↔ e ∈ t.rows ∧ p e.1 e.2 = true := by
  simp [keep]

/-- A number has one row. -/
theorem row_unique {i : Nat} {a b : α} (ha : (i, a) ∈ t.rows) (hb : (i, b) ∈ t.rows) : a = b :=
  (Prod.mk.inj (List.inj_on_of_nodup_map t.nodup ha hb rfl)).2

end Table

end Serial
