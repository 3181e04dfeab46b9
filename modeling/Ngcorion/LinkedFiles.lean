import Mathlib.Logic.Relation
import Mathlib.Logic.Function.Basic

/-!
# Files and symbolic links

A name holds a file, a link to another name, or nothing. Reading a name follows its links, up to a limit, to the name
at their end.
-/
namespace LinkedFiles

variable {Name Content : Type}

inductive Node (Name Content : Type) where
  | file (content : Content)
  | link (target : Name)

abbrev FS (Name Content : Type) := Name → Option (Node Name Content)

/-- The links that are followed at most -/
def maxLinks : Nat := 40

/-- The name at the end of the links, whether a file is there or not; none where there are too many links. -/
def follow (fs : FS Name Content) : Nat → Name → Option Name
  | 0, p => match fs p with
    | some (.link _) => none
    | _ => some p
  | n + 1, p => match fs p with
    | some (.link t) => follow fs n t
    | _ => some p

/-- What is read through a name -/
def read (fs : FS Name Content) (p : Name) : Option Content :=
  (follow fs maxLinks p).bind fun q => match fs q with
    | some (.file c) => some c
    | _ => none

def IsLink (fs : FS Name Content) (p : Name) : Prop := ∃ t, fs p = some (.link t)

/-- A name leads over so many links to one that is none. -/
inductive Leads (fs : FS Name Content) : Nat → Name → Name → Prop where
  | here {p : Name} : ¬ IsLink fs p → Leads fs 0 p p
  | link {n : Nat} {p t q : Name} : fs p = some (.link t) → Leads fs n t q → Leads fs (n + 1) p q

/-- The second name is on the way of the first one's links. -/
abbrev On (fs : FS Name Content) : Name → Name → Prop := Relation.ReflTransGen fun a b => fs a = some (.link b)

variable {fs fs' : FS Name Content} {p q r : Name} {n m k : Nat}

theorem Leads.end_not_link (h : Leads fs n p q) : ¬ IsLink fs q := by
  induction h with
  | here hp => exact hp
  | link _ _ ih => exact ih

theorem Leads.on (h : Leads fs n p q) : On fs p q := by
  induction h with
  | here => exact .refl
  | link hp _ ih => exact .head hp ih

theorem Leads.unique (h : Leads fs n p q) (h' : Leads fs m p r) : q = r := by
  induction h generalizing m with
  | here hp =>
    cases h' with
    | here => rfl
    | link hl => exact absurd ⟨_, hl⟩ hp
  | link hl _ ih =>
    cases h' with
    | here hp => exact absurd ⟨_, hl⟩ hp
    | link hl' h' =>
      rw [hl] at hl'
      cases hl'
      exact ih h'

theorem not_isLink_of_none (h : fs p = none) : ¬ IsLink fs p := by simp [IsLink, h]

theorem not_isLink_of_file {c : Content} (h : fs p = some (.file c)) : ¬ IsLink fs p := by simp [IsLink, h]

theorem follow_of_not_link (h : ¬ IsLink fs p) (k : Nat) : follow fs k p = some p := by
  cases hp : fs p with
  | none => cases k <;> simp [follow, hp]
  | some node =>
    cases node with
    | file c => cases k <;> simp [follow, hp]
    | link t => exact absurd ⟨t, hp⟩ h

theorem follow_eq_some : follow fs k p = some q ↔ ∃ n ≤ k, Leads fs n p q := by
  induction k generalizing p with
  | zero =>
    by_cases hlink : IsLink fs p
    · obtain ⟨t, ht⟩ := hlink
      refine iff_of_false (by simp [follow, ht]) ?_
      rintro ⟨n, hn, h⟩
      cases h with
      | here hp => exact hp ⟨t, ht⟩
      | link => omega
    · rw [follow_of_not_link hlink]
      constructor
      · rintro h
        cases h
        exact ⟨0, Nat.le_refl 0, .here hlink⟩
      · rintro ⟨n, -, h⟩
        rw [h.unique (.here hlink)]
  | succ k ih =>
    by_cases hlink : IsLink fs p
    · obtain ⟨t, ht⟩ := hlink
      have hfollow : follow fs (k + 1) p = follow fs k t := by simp [follow, ht]
      rw [hfollow, ih]
      constructor
      · rintro ⟨n, hn, h⟩
        exact ⟨n + 1, Nat.succ_le_succ hn, .link ht h⟩
      · rintro ⟨n, hn, h⟩
        cases h with
        | here hp => exact absurd ⟨t, ht⟩ hp
        | link ht' h =>
          rw [ht] at ht'
          cases ht'
          exact ⟨_, Nat.le_of_succ_le_succ hn, h⟩
    · rw [follow_of_not_link hlink]
      constructor
      · rintro h
        cases h
        exact ⟨0, Nat.zero_le _, .here hlink⟩
      · rintro ⟨n, -, h⟩
        rw [h.unique (.here hlink)]

theorem read_eq_some {c : Content} : read fs p = some c ↔ ∃ n ≤ maxLinks, ∃ q, Leads fs n p q ∧ fs q = some (.file c) := by
  constructor
  · intro h
    obtain ⟨q, hq, hfile⟩ := Option.bind_eq_some_iff.mp h
    obtain ⟨n, hn, hleads⟩ := follow_eq_some.mp hq
    refine ⟨n, hn, q, hleads, ?_⟩
    cases hnode : fs q with
    | none => simp [hnode] at hfile
    | some node => cases node <;> simp_all
  · rintro ⟨n, hn, q, hleads, hfile⟩
    have hfollow : follow fs maxLinks p = some q := follow_eq_some.mpr ⟨n, hn, hleads⟩
    simp [read, hfollow, hfile]

/-- The rest of a way -/
theorem Leads.rest (h : Leads fs n p q) (hr : On fs p r) : ∃ m ≤ n, Leads fs m r q := by
  induction hr using Relation.ReflTransGen.head_induction_on generalizing n with
  | refl => exact ⟨n, Nat.le_refl n, h⟩
  | head hab _ ih =>
    cases h with
    | here hp => exact absurd ⟨_, hab⟩ hp
    | link ht h =>
      rw [hab] at ht
      cases ht
      obtain ⟨m, hm, hleads⟩ := ih h
      exact ⟨m, Nat.le_succ_of_le hm, hleads⟩

/-- Links that stay where they are lead to the same end. -/
theorem Leads.keep (h : Leads fs n p q) (hkeep : ∀ r t, On fs p r → fs r = some (.link t) → fs' r = some (.link t))
    (hend : ¬ IsLink fs' q) : Leads fs' n p q := by
  induction h with
  | here => exact .here hend
  | @link n p t q hp _ ih =>
    refine .link (hkeep p t .refl hp) (ih (fun r u hr hu => ?_) hend)
    exact hkeep r u (.head hp hr) hu

end LinkedFiles
