import Mathlib.Tactic.Common

/-!
# Programs with state and exceptions

A program runs on a state and ends with a value or with an exception. `wp` says
what must hold of the state so that a program ends as wanted, either way; the
rules below compute it along the program text.
-/
namespace Program

variable {ε σ α β : Type}

def Prog (ε σ α : Type) : Type := σ → Except ε α × σ

namespace Prog

protected def pure (a : α) : Prog ε σ α := fun s => (.ok a, s)

protected def bind (m : Prog ε σ α) (f : α → Prog ε σ β) : Prog ε σ β := fun s =>
  match m s with
  | (.ok a, s') => f a s'
  | (.error e, s') => (.error e, s')

instance : Monad (Prog ε σ) where
  pure := Prog.pure
  bind := Prog.bind

end Prog

def raise (e : ε) : Prog ε σ α := fun s => (.error e, s)

def read (f : σ → α) : Prog ε σ α := fun s => (.ok (f s), s)

def update (f : σ → σ) : Prog ε σ Unit := fun s => (.ok (), f s)

/-- Run a program and catch whatever it raises; its effects stay. -/
def attempt (m : Prog ε σ α) : Prog ε σ (Except ε α) := fun s => (.ok (m s).1, (m s).2)

/-- The program ends in `Q` with a value, or in `E` with an exception. -/
def wp (m : Prog ε σ α) (Q : α → σ → Prop) (E : ε → σ → Prop) (s : σ) : Prop :=
  match m s with
  | (.ok a, s') => Q a s'
  | (.error e, s') => E e s'

section
variable {Q Q' : α → σ → Prop} {E E' : ε → σ → Prop} {s : σ}

@[simp] theorem wp_pure (a : α) : wp (pure a : Prog ε σ α) Q E s ↔ Q a s := Iff.rfl

@[simp] theorem wp_raise (e : ε) : wp (raise e : Prog ε σ α) Q E s ↔ E e s := Iff.rfl

@[simp] theorem wp_read (f : σ → α) : wp (read f : Prog ε σ α) Q E s ↔ Q (f s) s := Iff.rfl

@[simp] theorem wp_update (f : σ → σ) {Q : Unit → σ → Prop} :
    wp (update f : Prog ε σ Unit) Q E s ↔ Q () (f s) := Iff.rfl

@[simp] theorem wp_bind (m : Prog ε σ β) (f : β → Prog ε σ α) :
    wp (m >>= f) Q E s ↔ wp m (fun b => wp (f b) Q E) E s := by
  change wp (Prog.bind m f) Q E s ↔ _
  unfold wp Prog.bind
  cases m s with
  | mk result s' => cases result <;> rfl

@[simp] theorem wp_attempt (m : Prog ε σ β) {Q : Except ε β → σ → Prop} :
    wp (attempt m) Q E s ↔ wp m (fun b => Q (.ok b)) (fun e => Q (.error e)) s := by
  unfold wp attempt
  cases m s with
  | mk result s' => cases result <;> rfl

theorem wp_ite (c : Prop) [Decidable c] (m n : Prog ε σ α) :
    wp (if c then m else n) Q E s ↔ if c then wp m Q E s else wp n Q E s := by
  split <;> rfl

/-- Weaker demands on the end are met as well. -/
theorem wp_mono {m : Prog ε σ α} (h : wp m Q E s) (hQ : ∀ a s', Q a s' → Q' a s')
    (hE : ∀ e s', E e s' → E' e s') : wp m Q' E' s := by
  unfold wp at h ⊢
  cases hm : m s with
  | mk result s' =>
    rw [hm] at h
    cases result with
    | ok a => exact hQ a s' h
    | error e => exact hE e s' h

/-- A program that cannot raise ends with a value. -/
theorem exists_of_wp {m : Prog ε σ α} (h : wp m Q (fun _ _ => False) s) : ∃ a s', m s = (.ok a, s') ∧ Q a s' := by
  unfold wp at h
  cases hm : m s with
  | mk result s' =>
    rw [hm] at h
    cases result with
    | ok a => exact ⟨a, s', rfl, h⟩
    | error e => exact h.elim

end

end Program
