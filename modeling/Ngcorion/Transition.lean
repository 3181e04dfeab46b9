import Mathlib.Tactic.Common

/-!
# Runs of a system that takes steps

A system takes a step for an action where the action is possible. `Reach` is
what it reaches when every step is allowed in the state before it. The processes
of a system are a list, and a step of one of them leaves the others.
-/
namespace Transition

variable {σ α : Type}

/-- Take the steps of a list of actions. -/
def run (step : σ → α → Option σ) : List α → σ → Option σ
  | [], s => some s
  | a :: as, s => (step s a).bind (run step as)

theorem run_append (step : σ → α → Option σ) (as bs : List α) (s : σ) :
    run step (as ++ bs) s = (run step as s).bind (run step bs) := by
  induction as generalizing s with
  | nil => rfl
  | cons a as ih =>
    rw [List.cons_append, run, run, Option.bind_assoc]
    exact congrArg _ (funext ih)

/-- The states that allowed steps lead to. -/
inductive Reach (step : σ → α → Option σ) (allowed : σ → α → Prop) (start : σ) : σ → Prop where
  | start : Reach step allowed start start
  | step {s s' : σ} {a : α} (before : Reach step allowed start s) (ok : allowed s a) (taken : step s a = some s') :
      Reach step allowed start s'

section Reach

variable {step : σ → α → Option σ} {allowed : σ → α → Prop} {start s s' : σ}

/-- What holds at the start and is kept by every allowed step holds in every state reached. -/
theorem Reach.invariant {inv : σ → Prop} (hstart : inv start)
    (hstep : ∀ s a s', inv s → allowed s a → step s a = some s' → inv s') (h : Reach step allowed start s) : inv s := by
  induction h with
  | start => exact hstart
  | step _ ok taken ih => exact hstep _ _ _ ih ok taken

/-- What is reached from a state that was reached is reached from the start. -/
theorem Reach.trans (h : Reach step allowed start s) (h' : Reach step allowed s s') : Reach step allowed start s' := by
  induction h' with
  | start => exact h
  | step _ ok taken ih => exact .step ih ok taken

/-- A run in which every action passes a check is a way to reach its last state. -/
theorem Reach.run {check : σ → α → Bool} (hcheck : ∀ s a, check s a = true → allowed s a) (as : List α)
    (hs : Reach step allowed start s)
    (h : Transition.run (fun s a => if check s a then step s a else none) as s = some s') :
    Reach step allowed start s' := by
  induction as generalizing s with
  | nil =>
    cases h
    exact hs
  | cons a as ih =>
    simp only [Transition.run, Option.bind_eq_some_iff] at h
    obtain ⟨s₁, htaken, hrest⟩ := h
    split at htaken
    · rename_i hok
      exact ih (.step hs (hcheck s a hok) htaken) hrest
    · simp at htaken

/-- What a run of any actions leads to -/
theorem Reach.of_run (as : List α) (h : Transition.run step as s = some s') : Reach step (fun _ _ => True) s s' := by
  refine Reach.run (fun _ _ _ => trivial) as .start (?_ : Transition.run (fun s a => if true then step s a else none) as s = _)
  simpa using h

end Reach

section Processes

variable {processes : List α} {i j : Nat} {a b : α}

/-- After one process has changed, a process is that one or as it was. -/
theorem getElem_set_cases (h : (processes.set i a)[j]? = some b) : j = i ∧ b = a ∨ j ≠ i ∧ processes[j]? = some b := by
  rw [List.getElem?_set] at h
  split at h
  · rename_i heq
    split at h
    · exact Or.inl ⟨heq.symm, (Option.some.inj h).symm⟩
    · simp at h
  · rename_i hne
    exact Or.inr ⟨fun heq => hne heq.symm, h⟩

theorem mem_set_self (h : processes[i]? = some a) (b : α) : b ∈ processes.set i b :=
  List.mem_set (List.getElem?_eq_some_iff.mp h).1 b

/-- A process that is not the changed one is still there. -/
theorem mem_set_of_ne (hi : processes[i]? = some a) (h : b ∈ processes) (hne : b ≠ a) (c : α) :
    b ∈ processes.set i c := by
  obtain ⟨j, hj⟩ := List.mem_iff_getElem?.mp h
  have hij : i ≠ j := by
    intro heq
    rw [heq, hj] at hi
    exact hne (Option.some.inj hi)
  exact List.mem_iff_getElem?.mpr ⟨j, by rw [List.getElem?_set_ne hij, hj]⟩

/-- The processes other than one. -/
def others (processes : List α) (i : Nat) : List α := processes.eraseIdx i

theorem mem_others (hne : j ≠ i) (h : processes[j]? = some b) : b ∈ others processes i :=
  List.mem_eraseIdx_iff_getElem?.mpr ⟨j, hne, h⟩

end Processes

end Transition
