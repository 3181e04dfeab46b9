import Mathlib.Data.List.Dedup

/-!
# Rows by key

What a query with `group_by` returns: one row for each key that occurs, made from all the
records of that key.
-/
namespace Grouping

variable {α β κ : Type} [DecidableEq κ]

/-- The row of each key, made from the key and its records. -/
def groupBy (key : α → κ) (row : κ → List α → β) (xs : List α) : List β :=
  (xs.map key).dedup.map (fun k => row k (xs.filter (fun x => key x = k)))

variable {row : κ → List α → β}

theorem groupBy_eq_nil {key : α → κ} {xs : List α} : groupBy key row xs = [] ↔ xs = [] := by
  simp [groupBy, List.dedup_eq_nil]

/-- A list without repetitions holds a member once. -/
theorem filter_eq_singleton {ks : List κ} {k : κ} (h : ks.Nodup) (hk : k ∈ ks) : ks.filter (fun j => j = k) = [k] := by
  induction ks with
  | nil => simp at hk
  | cons j ks ih =>
    obtain ⟨hj, hks⟩ := List.nodup_cons.mp h
    by_cases heq : j = k
    · subst heq
      have hrest : ks.filter (fun i => decide (i = j)) = [] := by
        rw [List.filter_eq_nil_iff]
        intro i hi
        simpa using fun he : i = j => hj (he ▸ hi)
      simp [hrest]
    · have hmem : k ∈ ks := by
        cases List.mem_cons.mp hk with
        | inl he => exact absurd he.symm heq
        | inr he => exact he
      simp [heq, ih hks hmem]

/-- Of the rows of one key there is exactly one. -/
theorem filter_groupBy (key : α → κ) {keyOf : β → κ} (hkey : ∀ k ys, keyOf (row k ys) = k) {xs : List α} {k : κ}
    (hk : ∃ x ∈ xs, key x = k) :
    (groupBy key row xs).filter (fun r => keyOf r = k) = [row k (xs.filter (fun x => key x = k))] := by
  have hmem : k ∈ (xs.map key).dedup := by simpa using hk
  have hone := filter_eq_singleton (List.nodup_dedup (xs.map key)) hmem
  unfold groupBy
  rw [List.filter_map]
  have hcomp : ((fun r => decide (keyOf r = k)) ∘ fun k => row k (xs.filter (fun x => key x = k))) =
      fun j => decide (j = k) := by
    funext j
    simp [hkey]
  rw [hcomp, hone]
  rfl

end Grouping
