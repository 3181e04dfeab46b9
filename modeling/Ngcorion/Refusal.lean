import Mathlib.Tactic.Common

/-!
# Computations that may be refused

What is known after a computation in `Except` has come to a result: every check
in it has passed and every part of it has a result of its own.
-/
namespace Refusal

variable {ε α β : Type}

/-- `if condition: raise reason` -/
def refuse (condition : Prop) [Decidable condition] (reason : ε) : Except ε Unit :=
  if condition then .error reason else .ok ()

@[simp] theorem refuse_ok (condition : Prop) [Decidable condition] (reason : ε) (u : Unit) :
    refuse condition reason = .ok u ↔ ¬ condition := by
  by_cases h : condition <;> simp [refuse, h]

/-- `if condition: check()` -/
def only (condition : Prop) [Decidable condition] (check : Except ε Unit) : Except ε Unit :=
  if condition then check else .ok ()

@[simp] theorem only_ok (condition : Prop) [Decidable condition] (check : Except ε Unit) (u : Unit) :
    only condition check = .ok u ↔ (condition → check = .ok u) := by
  by_cases h : condition <;> simp [only, h]

@[simp] theorem bind_ok (x : Except ε α) (f : α → Except ε β) (b : β) :
    (x >>= f) = .ok b ↔ ∃ a, x = .ok a ∧ f a = .ok b := by
  cases x with
  | error e => simp [bind, Except.bind]
  | ok a => simp [bind, Except.bind]

@[simp] theorem pure_ok (a b : α) : (pure a : Except ε α) = .ok b ↔ a = b := by simp [pure, Except.pure]

/-- Each result of a list of computations comes from one of them. -/
theorem exists_of_mapM {f : α → Except ε β} {as : List α} {bs : List β} (h : as.mapM f = .ok bs) {b : β}
    (hb : b ∈ bs) : ∃ a ∈ as, f a = .ok b := by
  induction as generalizing bs with
  | nil =>
    simp only [List.mapM_nil, pure_ok] at h
    subst h
    simp at hb
  | cons a as ih =>
    simp only [List.mapM_cons, bind_ok, pure_ok] at h
    obtain ⟨c, hc, rest, hrest, rfl⟩ := h
    rcases List.mem_cons.mp hb with rfl | hb
    · exact ⟨a, List.mem_cons_self, hc⟩
    · obtain ⟨a', ha', hfa⟩ := ih hrest hb
      exact ⟨a', List.mem_cons_of_mem _ ha', hfa⟩

/-- Each computation of the list has its result among the results. -/
theorem mem_of_mapM {f : α → Except ε β} {as : List α} {bs : List β} (h : as.mapM f = .ok bs) {a : α} (ha : a ∈ as) :
    ∃ b ∈ bs, f a = .ok b := by
  induction as generalizing bs with
  | nil => cases ha
  | cons x as ih =>
    simp only [List.mapM_cons, bind_ok, pure_ok] at h
    obtain ⟨y, hy, rest, hrest, rfl⟩ := h
    rcases List.mem_cons.mp ha with rfl | ha
    · exact ⟨y, List.mem_cons_self, hy⟩
    · obtain ⟨b, hb, hf⟩ := ih hrest ha
      exact ⟨b, List.mem_cons_of_mem _ hb, hf⟩

theorem mapM_map {f : α → Except ε β} {g : α → β} {as : List α} (h : ∀ a ∈ as, f a = .ok (g a)) :
    as.mapM f = .ok (as.map g) := by
  induction as with
  | nil => rfl
  | cons a as ih =>
    rw [List.mapM_cons, h a List.mem_cons_self, ih fun x hx => h x (List.mem_cons_of_mem _ hx)]
    rfl

end Refusal
