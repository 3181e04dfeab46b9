import Mathlib.Tactic.Common

/-!
# Statements that may raise

A straight course of statements, each at a site of its own. A plan says which of
them raise an exception, and whether the statement had its effect before it did. A
statement may absorb an exception, and the course goes on.
-/
namespace Faults

/-- An exception, and whether the statement had its effect. -/
structure Fault (ε : Type) where
  applied : Bool
  exception : ε

structure Stmt (κ σ ε : Type) where
  site : κ
  effect : σ → σ
  absorbs : ε → Bool

variable {κ σ ε : Type}

/-- The exception that leaves a statement. -/
def Stmt.raises (plan : κ → Option (Fault ε)) (st : Stmt κ σ ε) : Bool :=
  (plan st.site).any (fun f => !st.absorbs f.exception)

/-- The statement has its effect when it is reached. -/
def Stmt.takesEffect (plan : κ → Option (Fault ε)) (st : Stmt κ σ ε) : Bool := (plan st.site).all (fun f => f.applied)

/-- The state after a statement. -/
def Stmt.run (plan : κ → Option (Fault ε)) (st : Stmt κ σ ε) (s : σ) : σ :=
  if st.takesEffect plan then st.effect s else s

/-- Run the statements until one raises. -/
def exec (plan : κ → Option (Fault ε)) : List (Stmt κ σ ε) → σ → σ × Option ε
  | [], s => (s, none)
  | st :: rest, s =>
    if st.raises plan then (st.run plan s, (plan st.site).map Fault.exception) else exec plan rest (st.run plan s)

/-- One of the statements raises. -/
def raises (plan : κ → Option (Fault ε)) (sts : List (Stmt κ σ ε)) : Bool := sts.any (Stmt.raises plan)

variable {plan : κ → Option (Fault ε)} {st : Stmt κ σ ε} {sts rest : List (Stmt κ σ ε)} {s : σ}

theorem exec_cons_raises (h : st.raises plan = true) :
    exec plan (st :: rest) s = (st.run plan s, (plan st.site).map Fault.exception) := if_pos h

theorem exec_cons (h : st.raises plan = false) : exec plan (st :: rest) s = exec plan rest (st.run plan s) :=
  if_neg (by simp [h])

theorem exec_exception (plan : κ → Option (Fault ε)) (sts : List (Stmt κ σ ε)) (s : σ) :
    (exec plan sts s).2.isSome = raises plan sts := by
  induction sts generalizing s with
  | nil => rfl
  | cons st sts ih =>
    rw [raises, List.any_cons]
    cases hraises : st.raises plan with
    | true =>
      rw [exec_cons_raises hraises]
      cases hplan : plan st.site with
      | none => simp [Stmt.raises, hplan] at hraises
      | some f => simp
    | false =>
      rw [exec_cons hraises, Bool.false_or]
      exact ih _

/-- What follows a course that raises is not reached. -/
theorem exec_append_raises (h : raises plan sts = true) : exec plan (sts ++ rest) s = exec plan sts s := by
  induction sts generalizing s with
  | nil => simp [raises] at h
  | cons st sts ih =>
    rw [List.cons_append]
    cases hst : st.raises plan with
    | true => rw [exec_cons_raises hst, exec_cons_raises hst]
    | false =>
      rw [exec_cons hst, exec_cons hst]
      apply ih
      simpa [raises, hst] using h

theorem exec_append (h : raises plan sts = false) :
    exec plan (sts ++ rest) s = exec plan rest (exec plan sts s).1 := by
  induction sts generalizing s with
  | nil => rfl
  | cons st sts ih =>
    simp only [raises, List.any_cons, Bool.or_eq_false_iff] at h
    rw [List.cons_append, exec_cons h.1, exec_cons h.1]
    exact ih h.2

/-- What every statement keeps is kept, wherever the course ends. -/
theorem exec_keeps {p : σ → Prop} (h : ∀ st ∈ sts, ∀ s, p s → p (st.effect s)) (hs : p s) : p (exec plan sts s).1 := by
  induction sts generalizing s with
  | nil => exact hs
  | cons st sts ih =>
    have hrun : p (st.run plan s) := by
      unfold Stmt.run
      split
      · exact h st List.mem_cons_self s hs
      · exact hs
    cases hst : st.raises plan with
    | true =>
      rw [exec_cons_raises hst]
      exact hrun
    | false =>
      rw [exec_cons hst]
      exact ih (fun st' hst' => h st' (List.mem_cons_of_mem _ hst')) hrun

/-- A statement that does not raise without its effect: what it brings about holds from then on. -/
theorem exec_reaches {p : σ → Prop} (hbefore : raises plan sts = false)
    (heffect : st.takesEffect plan = true) (hst : ∀ s, p (st.effect s))
    (hrest : ∀ st' ∈ rest, ∀ s, p s → p (st'.effect s)) : p (exec plan (sts ++ st :: rest) s).1 := by
  rw [exec_append hbefore]
  have hrun : p (st.run plan (exec plan sts s).1) := by
    rw [Stmt.run, if_pos heffect]
    exact hst _
  cases hraises : st.raises plan with
  | true =>
    rw [exec_cons_raises hraises]
    exact hrun
  | false =>
    rw [exec_cons hraises]
    exact exec_keeps hrest hrun

end Faults
