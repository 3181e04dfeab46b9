import Mathlib.Data.List.Sort

/-!
# Stable sorting

Sorting keeps the order of elements that may stand either way round, and a sorted list is cut in two by what stands at
its front.
-/
namespace StableSort

variable {α : Type}

/-- Elements that are all in relation to each other keep their order. -/
theorem filter_insertionSort (r : α → α → Prop) [DecidableRel r] {l : List α} (P : α → Bool)
    (h : ∀ a b, a ∈ l → b ∈ l → P a → P b → r a b) : (l.insertionSort r).filter P = l.filter P := by
  have hsorted : (l.filter P).Pairwise r := by
    refine List.pairwise_iff_forall_sublist.mpr fun {a b} hab => ?_
    have ha : a ∈ l.filter P := hab.subset (by simp)
    have hb : b ∈ l.filter P := hab.subset (by simp)
    exact h a b (List.mem_of_mem_filter ha) (List.mem_of_mem_filter hb) (List.of_mem_filter ha) (List.of_mem_filter hb)
  have hsub : (l.filter P).Sublist ((l.insertionSort r).filter P) := by
    simpa using (List.sublist_insertionSort hsorted List.filter_sublist).filter P
  exact (hsub.eq_of_length ((List.perm_insertionSort r l).filter P).length_eq.symm).symm

/-- What the relation puts in front comes first. -/
theorem filter_append_filter {r : α → α → Prop} {P : α → Bool} {l : List α} (hl : l.Pairwise r)
    (h : ∀ a b, a ∈ l → b ∈ l → r a b → P b → P a) : l.filter P ++ l.filter (fun a => !P a) = l := by
  induction l with
  | nil => rfl
  | cons a l ih =>
    rw [List.pairwise_cons] at hl
    have hi := ih hl.2 fun b c hb hc => h b c (by simp [hb]) (by simp [hc])
    by_cases ha : P a
    · simp [ha, hi]
    · have hnone : l.filter P = [] := by
        refine List.filter_eq_nil_iff.mpr fun b hb hPb => ha ?_
        exact h a b (by simp) (by simp [hb]) (hl.1 b hb) hPb
      rw [hnone, List.nil_append] at hi
      simp [ha, hnone, hi]

/-- The first of a sorted list is the first of the smallest. -/
theorem head_insertionSort {κ : Type} [LinearOrder κ] (key : α → κ) (l : List α) :
    (l.insertionSort fun a b => key a ≤ key b).head? = l.find? fun a => l.all fun b => key a ≤ key b := by
  have : IsTrans α fun a b => key a ≤ key b := ⟨fun _ _ _ => le_trans⟩
  have : Std.Total fun a b => key a ≤ key b := ⟨fun a b => le_total (key a) (key b)⟩
  have hsame := filter_insertionSort (fun a b => key a ≤ key b) (l := l) (fun a => l.all fun b => key a ≤ key b)
    fun a b _ hb ha _ => by simpa using List.all_eq_true.mp ha b hb
  have hsorted := List.pairwise_insertionSort (fun a b => key a ≤ key b) l
  have hmem (b : α) : b ∈ l.insertionSort (fun a b => key a ≤ key b) ↔ b ∈ l := (List.perm_insertionSort _ l).mem_iff
  rw [← List.head?_filter, ← hsame]
  cases hl : l.insertionSort fun a b => key a ≤ key b with
  | nil => rfl
  | cons a rest =>
    rw [hl] at hsorted hmem
    have hmin : (l.all fun b => key a ≤ key b) = true := by
      rw [List.all_eq_true]
      intro b hb
      rcases List.mem_cons.mp ((hmem b).mpr hb) with rfl | hb
      · simp
      · simpa using (List.pairwise_cons.mp hsorted).1 b hb
    simp [hmin]

end StableSort
