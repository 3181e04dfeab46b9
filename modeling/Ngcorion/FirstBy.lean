import Mathlib.Data.List.Nodup
import Mathlib.Tactic.Common

/-!
# The first element of each key

Going through a list with the set of keys seen so far: an element whose key was
seen before is left out.
-/
namespace FirstBy

variable {α κ : Type} [DecidableEq κ]

def firstBy (key : α → κ) : List κ → List α → List α
  | _, [] => []
  | seen, a :: as => if key a ∈ seen then firstBy key seen as else a :: firstBy key (key a :: seen) as

variable {key : α → κ}

@[simp] theorem firstBy_nil (seen : List κ) : firstBy key seen [] = [] := rfl

theorem firstBy_cons (seen : List κ) (a : α) (as : List α) :
    firstBy key seen (a :: as) = if key a ∈ seen then firstBy key seen as else a :: firstBy key (key a :: seen) as := rfl

theorem mem_of_mem_firstBy {seen : List κ} {as : List α} {a : α} (h : a ∈ firstBy key seen as) :
    a ∈ as ∧ key a ∉ seen := by
  induction as generalizing seen with
  | nil => simp at h
  | cons b as ih =>
    rw [firstBy_cons] at h
    split at h
    · exact ⟨List.mem_cons_of_mem _ (ih h).1, (ih h).2⟩
    · rename_i hb
      rcases List.mem_cons.mp h with rfl | h
      · exact ⟨List.mem_cons_self, hb⟩
      · exact ⟨List.mem_cons_of_mem _ (ih h).1, fun hseen => (ih h).2 (List.mem_cons_of_mem _ hseen)⟩

/-- An element is kept when no other one has its key. -/
theorem mem_firstBy {seen : List κ} {as : List α} {a : α} (ha : a ∈ as) (hseen : key a ∉ seen)
    (halone : ∀ b ∈ as, key b = key a → b = a) : a ∈ firstBy key seen as := by
  induction as generalizing seen with
  | nil => simp at ha
  | cons b as ih =>
    have halone' : ∀ c ∈ as, key c = key a → c = a := fun c hc => halone c (List.mem_cons_of_mem _ hc)
    rw [firstBy_cons]
    rcases List.mem_cons.mp ha with rfl | ha
    · simp [hseen]
    · split
      · exact ih ha hseen halone'
      · by_cases hkey : key b = key a
        · simp [halone b List.mem_cons_self hkey]
        · exact List.mem_cons_of_mem _ (ih ha (by simp [hseen, Ne.symm hkey]) halone')

/-- Every key of the list was seen before or is kept once. -/
theorem key_mem_firstBy {seen : List κ} {as : List α} {a : α} (ha : a ∈ as) (hseen : key a ∉ seen) :
    key a ∈ (firstBy key seen as).map key := by
  induction as generalizing seen with
  | nil => simp at ha
  | cons b as ih =>
    rw [firstBy_cons]
    rcases List.mem_cons.mp ha with rfl | ha
    · simp [hseen]
    · split
      · exact ih ha hseen
      · by_cases hkey : key a = key b
        · simp [hkey]
        · exact List.mem_cons_of_mem _ (ih ha (by simp [hkey, hseen]))

/-- In a list with an order, the element kept for a key stands before the others with that key. -/
theorem firstBy_pairwise {r : α → α → Prop} (hrefl : ∀ a, r a a) {seen : List κ} {as : List α} (has : as.Pairwise r)
    {a b : α} (ha : a ∈ firstBy key seen as) (hb : b ∈ as) (hkey : key b = key a) : r a b := by
  induction as generalizing seen with
  | nil => simp at hb
  | cons c as ih =>
    rw [List.pairwise_cons] at has
    rw [firstBy_cons] at ha
    split at ha
    · rename_i hc
      rcases List.mem_cons.mp hb with rfl | hb
      · exact absurd (hkey ▸ hc) (mem_of_mem_firstBy ha).2
      · exact ih has.2 ha hb
    · rcases List.mem_cons.mp ha with rfl | ha
      · rcases List.mem_cons.mp hb with rfl | hb
        · exact hrefl b
        · exact has.1 b hb
      · rcases List.mem_cons.mp hb with rfl | hb
        · exact absurd (by simp [hkey]) (mem_of_mem_firstBy ha).2
        · exact ih has.2 ha hb

theorem nodup_firstBy (seen : List κ) (as : List α) : ((firstBy key seen as).map key).Nodup := by
  induction as generalizing seen with
  | nil => simp
  | cons a as ih =>
    rw [firstBy_cons]
    split
    · exact ih seen
    · rw [List.map_cons, List.nodup_cons]
      refine ⟨?_, ih _⟩
      intro hmem
      obtain ⟨b, hb, hkey⟩ := List.mem_map.mp hmem
      exact (mem_of_mem_firstBy hb).2 (by simp [hkey])

/-- A seen key matters only when the list has it. -/
theorem firstBy_congr {seen seen' : List κ} {as : List α} (h : ∀ a ∈ as, key a ∈ seen ↔ key a ∈ seen') :
    firstBy key seen as = firstBy key seen' as := by
  induction as generalizing seen seen' with
  | nil => rfl
  | cons a as ih =>
    have hrest : ∀ b ∈ as, key b ∈ seen ↔ key b ∈ seen' := fun b hb => h b (List.mem_cons_of_mem _ hb)
    rw [firstBy_cons, firstBy_cons]
    by_cases ha : key a ∈ seen
    · rw [if_pos ha, if_pos ((h a List.mem_cons_self).mp ha)]
      exact ih hrest
    · rw [if_neg ha, if_neg (fun ha' => ha ((h a List.mem_cons_self).mpr ha'))]
      refine congrArg (a :: ·) (ih ?_)
      intro b hb
      simp [hrest b hb]

/-- Going on after a part of the list, with the keys kept so far. -/
theorem firstBy_append (seen : List κ) (as bs : List α) :
    firstBy key seen (as ++ bs) =
      firstBy key seen as ++ firstBy key (seen ++ (firstBy key seen as).map key) bs := by
  induction as generalizing seen with
  | nil => simp
  | cons a as ih =>
    simp only [List.cons_append, firstBy_cons]
    split
    · exact ih seen
    · rw [ih]
      simp only [List.cons_append, List.map_cons]
      refine congrArg (a :: firstBy key (key a :: seen) as ++ ·) (firstBy_congr ?_)
      intro b _
      simp only [List.mem_cons, List.mem_append]
      tauto

/-- Leaving out keys beforehand is leaving out their elements afterwards. -/
theorem firstBy_filter (key : α → κ) (p : κ → Bool) (seen : List κ) (as : List α) :
    firstBy key seen (as.filter (fun a => p (key a))) = (firstBy key seen as).filter (fun a => p (key a)) := by
  induction as generalizing seen with
  | nil => simp
  | cons a as ih =>
    by_cases hp : p (key a) = true
    · simp only [List.filter_cons, hp, if_true, firstBy_cons]
      split
      · exact ih seen
      · simp only [List.filter_cons, hp, if_true, ih]
    · simp only [List.filter_cons, hp, firstBy_cons, Bool.false_eq_true, if_false]
      by_cases ha : key a ∈ seen
      · rw [if_pos ha]
        exact ih seen
      · rw [if_neg ha]
        simp only [List.filter_cons, hp, Bool.false_eq_true, if_false, ← ih]
        apply firstBy_congr
        intro b hb
        have hb' : p (key b) = true := by simpa using (List.mem_filter.mp hb).2
        have hne : key b ≠ key a := by
          intro heq
          exact hp (heq ▸ hb')
        simp [hne]

/-- A key seen before is left out beforehand. -/
theorem firstBy_seen (k : κ) (seen : List κ) (as : List α) :
    firstBy key (k :: seen) as = firstBy key seen (as.filter fun a => key a ≠ k) := by
  induction as generalizing seen with
  | nil => simp
  | cons a as ih =>
    by_cases ha : key a = k
    · simp [firstBy_cons, ha, ih]
    · have hswap : firstBy key (key a :: k :: seen) as = firstBy key (k :: key a :: seen) as :=
        firstBy_congr fun b _ => by simp only [List.mem_cons]; tauto
      simp [firstBy_cons, ha, hswap, ih]

theorem firstBy_idem (seen : List κ) (as : List α) : firstBy key seen (firstBy key seen as) = firstBy key seen as := by
  induction as generalizing seen with
  | nil => simp
  | cons a as ih =>
    rw [firstBy_cons]
    by_cases ha : key a ∈ seen
    · rw [if_pos ha, ih]
    · rw [if_neg ha, firstBy_cons, if_neg ha, ih]

end FirstBy
