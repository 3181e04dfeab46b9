import Mathlib.Data.List.Basic
import Mathlib.Tactic.Common

/-!
# Insertion-ordered dictionaries

A dictionary is the list of its entries in insertion order. Assigning to a
present key replaces the value where the key stands; a new key goes last.
-/
namespace Dict

variable {κ : Type*} {α : Type*}

def keys (d : List (κ × α)) : List κ := d.map Prod.fst

@[simp] theorem keys_nil : keys ([] : List (κ × α)) = [] := rfl
@[simp] theorem keys_cons (k : κ) (v : α) (d : List (κ × α)) : keys ((k, v) :: d) = k :: keys d := rfl
@[simp] theorem keys_append (d e : List (κ × α)) : keys (d ++ e) = keys d ++ keys e := by simp [keys]

variable [DecidableEq κ]

def get : List (κ × α) → κ → Option α
  | [], _ => none
  | (k, v) :: d, key => if k = key then some v else get d key

def set : List (κ × α) → κ → α → List (κ × α)
  | [], key, v => [(key, v)]
  | (k, w) :: d, key, v => if k = key then (k, v) :: d else (k, w) :: set d key v

@[simp] theorem get_nil (key : κ) : get ([] : List (κ × α)) key = none := rfl
theorem get_cons (k : κ) (v : α) (d : List (κ × α)) (key : κ) :
    get ((k, v) :: d) key = if k = key then some v else get d key := rfl
theorem set_nil (key : κ) (v : α) : set [] key v = [(key, v)] := rfl
theorem set_cons (k : κ) (w : α) (d : List (κ × α)) (key : κ) (v : α) :
    set ((k, w) :: d) key v = if k = key then (k, v) :: d else (k, w) :: set d key v := rfl

theorem get_eq_none (d : List (κ × α)) (key : κ) : get d key = none ↔ key ∉ keys d := by
  induction d with
  | nil => simp
  | cons e d ih =>
    obtain ⟨k, v⟩ := e
    by_cases hk : k = key
    · simp [get_cons, hk]
    · simp [get_cons, hk, ih, Ne.symm hk]

theorem mem_of_get (d : List (κ × α)) (key : κ) (v : α) (h : get d key = some v) : (key, v) ∈ d := by
  induction d with
  | nil => simp at h
  | cons e d ih =>
    obtain ⟨k, w⟩ := e
    by_cases hk : k = key
    · simp only [get_cons, hk, if_true, Option.some.injEq] at h
      simp [hk, h]
    · simp only [get_cons, hk, if_false] at h
      exact List.mem_cons_of_mem _ (ih h)

theorem get_of_mem (d : List (κ × α)) (hd : (keys d).Nodup) (key : κ) (v : α) (h : (key, v) ∈ d) :
    get d key = some v := by
  induction d with
  | nil => simp at h
  | cons e d ih =>
    obtain ⟨k, w⟩ := e
    simp only [keys_cons, List.nodup_cons] at hd
    rcases List.mem_cons.mp h with he | h
    · cases he
      simp [get_cons]
    · have hk : k ≠ key := by
        rintro rfl
        exact hd.1 (List.mem_map.mpr ⟨(k, v), h, rfl⟩)
      simp [get_cons, hk, ih hd.2 h]

theorem get_append_of_not_mem (d e : List (κ × α)) (key : κ) (h : key ∉ keys d) : get (d ++ e) key = get e key := by
  induction d with
  | nil => rfl
  | cons f d ih =>
    obtain ⟨k, w⟩ := f
    simp only [keys_cons, List.mem_cons, not_or] at h
    rw [List.cons_append, get_cons, if_neg (Ne.symm h.1), ih h.2]

theorem get_map {β : Type*} (f : κ → α → β) (d : List (κ × α)) (key : κ) :
    get (d.map fun e => (e.1, f e.1 e.2)) key = (get d key).map (f key) := by
  induction d with
  | nil => rfl
  | cons e d ih =>
    obtain ⟨k, w⟩ := e
    by_cases hk : k = key
    · simp [get_cons, hk]
    · simp [get_cons, hk, ih]

theorem set_of_not_mem (d : List (κ × α)) (key : κ) (v : α) (h : key ∉ keys d) :
    set d key v = d ++ [(key, v)] := by
  induction d with
  | nil => rfl
  | cons e d ih =>
    obtain ⟨k, w⟩ := e
    simp only [keys_cons, List.mem_cons, not_or] at h
    simp [set_cons, Ne.symm h.1, ih h.2]

theorem get_set (d : List (κ × α)) (key other : κ) (v : α) :
    get (set d key v) other = if key = other then some v else get d other := by
  induction d with
  | nil => simp [set_nil, get_cons]
  | cons e d ih =>
    obtain ⟨k, w⟩ := e
    by_cases hk : k = key
    · subst hk
      by_cases ho : k = other <;> simp [set_cons, get_cons, ho]
    · by_cases ho : k = other
      · subst ho
        simp [set_cons, get_cons, hk, Ne.symm hk]
      · simp [set_cons, get_cons, hk, ho, ih]

@[simp] theorem set_set (d : List (κ × α)) (key : κ) (v w : α) : set (set d key v) key w = set d key w := by
  induction d with
  | nil => simp [set_nil, set_cons]
  | cons e d ih =>
    obtain ⟨k, u⟩ := e
    by_cases hk : k = key <;> simp [set_cons, hk, ih]

theorem mem_set (d : List (κ × α)) (key : κ) (v : α) (e : κ × α) (h : e ∈ set d key v) :
    e = (key, v) ∨ e ∈ d := by
  induction d with
  | nil => simpa [set_nil] using h
  | cons f d ih =>
    obtain ⟨k, w⟩ := f
    by_cases hk : k = key
    · subst hk
      simp only [set_cons, if_true, List.mem_cons] at h
      exact h.imp id (List.mem_cons_of_mem _)
    · simp only [set_cons, hk, if_false, List.mem_cons] at h
      rcases h with h | h
      · simp [h]
      · exact (ih h).imp id (List.mem_cons_of_mem _)

theorem keys_set (d : List (κ × α)) (key : κ) (v : α) :
    keys (set d key v) = if key ∈ keys d then keys d else keys d ++ [key] := by
  induction d with
  | nil => simp [set_nil]
  | cons e d ih =>
    obtain ⟨k, w⟩ := e
    by_cases hk : k = key
    · simp [set_cons, hk]
    · by_cases hm : key ∈ keys d <;> simp [set_cons, hk, Ne.symm hk, ih, hm]

theorem nodup_set (d : List (κ × α)) (key : κ) (v : α) (h : (keys d).Nodup) :
    (keys (set d key v)).Nodup := by
  rw [keys_set]
  split
  · exact h
  · next hm => exact List.nodup_append.mpr ⟨h, by simp, by simp; rintro a ha rfl; exact hm ha⟩

theorem set_self (d : List (κ × α)) (k : κ) (v : α) (h : get d k = some v) : set d k v = d := by
  induction d with
  | nil => simp at h
  | cons e d ih =>
    obtain ⟨k', v'⟩ := e
    by_cases hk : k' = k
    · simp only [get_cons, hk, if_true, Option.some.injEq] at h
      simp [set_cons, hk, h]
    · simp only [get_cons, hk, if_false] at h
      simp [set_cons, hk, ih h]

theorem get_filter (d : List (κ × α)) (p : κ → Bool) (key : κ) :
    get (d.filter (fun e => p e.1)) key = if p key then get d key else none := by
  induction d with
  | nil => simp
  | cons e d ih =>
    obtain ⟨k, v⟩ := e
    by_cases hk : k = key
    · subst hk
      cases hp : p k with
      | true => simp [hp, get_cons]
      | false => simpa [hp] using ih
    · cases hp : p k with
      | true => simpa [hp, get_cons, hk] using ih
      | false => simpa [hp, get_cons, hk] using ih

def erase (d : List (κ × α)) (key : κ) : List (κ × α) := d.filter (fun e => e.1 ≠ key)

theorem get_erase (d : List (κ × α)) (key other : κ) :
    get (erase d key) other = if key = other then none else get d other := by
  induction d with
  | nil => simp [erase]
  | cons e d ih =>
    obtain ⟨k, v⟩ := e
    unfold erase at ih ⊢
    by_cases hk : k = key
    · subst hk
      by_cases ho : k = other
      · simpa [ho] using ih
      · simpa [ho, get_cons] using ih
    · by_cases ho : k = other
      · subst ho
        simp [hk, Ne.symm hk, get_cons]
      · simpa [hk, ho, get_cons] using ih

end Dict
