import Ngcorion.Text
import Ngcorion.Dict
import Ngcorion.Transition

/-!
# Pinned SSH host keys

Several worker processes share the file of known hosts. A call compares the key that a
device presents with the pinned ones and, for an unknown host, pins it. The comparison
and the pinning each see the file as it is at that moment; between them, other calls may
have pinned or forgotten keys.
-/
namespace HostKeys

open Text Transition

/-- The type and the bytes of a public key. -/
structure PKey where
  name : Str
  bytes : Str
  deriving DecidableEq

structure Endpoint where
  host : Str
  port : Nat
  deriving DecidableEq

/-- `host_key_entry_name` -/
def Endpoint.entryName (e : Endpoint) : Str :=
  if e.port = 22 then e.host else '[' :: e.host ++ ']' :: ':' :: Nat.toDigits 10 e.port

/-- The keys of an entry, by their type. -/
abbrev Entry := List (Str × Str)

/-- The file, by entry name. -/
abbrev Store := List (Str × Entry)

/-! ## One call -/

inductive VerificationResult where
  | isMatch | mismatch | unknown
  deriving DecidableEq

/-- The keys that are pinned for an endpoint. -/
def lookup (store : Store) (e : Endpoint) : Entry := (Dict.get store e.entryName).getD []

def verify (store : Store) (e : Endpoint) (key : PKey) : VerificationResult :=
  if lookup store e = [] then .unknown
  else match Dict.get (lookup store e) key.name with
    | none => .mismatch
    | some stored => if stored = key.bytes then .isMatch else .mismatch

/-- A key of a type that is there already takes its place. -/
def add (store : Store) (e : Endpoint) (key : PKey) : Store :=
  Dict.set store e.entryName (Dict.set (lookup store e) key.name key.bytes)

def forget (store : Store) (e : Endpoint) : Store := Dict.erase store e.entryName

inductive HostKeyPolicyMode where
  | tofu | strict
  deriving DecidableEq

/-- A call of `evaluate_host_key`: it has read nothing yet, it is going to pin the key, it is
going to return, or it is over. -/
inductive Phase where
  | started | pinning | accepting | done
  deriving DecidableEq

structure Call where
  device : Endpoint
  key : PKey
  phase : Phase

def afterVerify (policy : HostKeyPolicyMode) : VerificationResult → Phase
  | .isMatch => .accepting
  | .mismatch => .done
  | .unknown => if policy = .strict then .done else .pinning

/-! ## Calls of several processes -/

inductive Event where
  | accepted (device : Endpoint) (key : PKey)
  | forgot (device : Endpoint)
  deriving DecidableEq

/-- The store, the calls, and what was accepted and forgotten, the last first. -/
structure State where
  store : Store
  calls : List Call
  log : List Event

inductive Action where
  | call (device : Endpoint) (key : PKey)
  | advance (index : Nat)
  | forget (device : Endpoint)

/-- The next step of a call: it reads, it pins, or it returns. -/
def advance (policy : HostKeyPolicyMode) (s : State) (i : Nat) (c : Call) : Option State :=
  match c.phase with
  | .started => some { s with calls := s.calls.set i { c with phase := afterVerify policy (verify s.store c.device c.key) } }
  | .pinning => some { s with
      store := add s.store c.device c.key
      calls := s.calls.set i { c with phase := .accepting } }
  | .accepting => some { s with
      calls := s.calls.set i { c with phase := .done }
      log := .accepted c.device c.key :: s.log }
  | .done => none

def step (policy : HostKeyPolicyMode) (s : State) : Action → Option State
  | .call device key => some { s with calls := s.calls ++ [⟨device, key, .started⟩] }
  | .advance i => (s.calls[i]?).bind (advance policy s i)
  | .forget device => some { s with store := forget s.store device, log := .forgot device :: s.log }

def begin (store : Store) : State := ⟨store, [], []⟩

/-! ## What the log says -/

/-- The key that was accepted last for an entry and not forgotten since. -/
def trusted (name : Str) : List Event → Option PKey
  | [] => none
  | .accepted device key :: log => if device.entryName = name then some key else trusted name log
  | .forgot device :: log => if device.entryName = name then none else trusted name log

theorem trusted_accepted (name : Str) (device : Endpoint) (key : PKey) (log : List Event) :
    trusted name (.accepted device key :: log) = if device.entryName = name then some key else trusted name log := rfl

theorem trusted_forgot (name : Str) (device : Endpoint) (log : List Event) :
    trusted name (.forgot device :: log) = if device.entryName = name then none else trusted name log := rfl

/-- No call accepts another key than the one that is trusted. -/
def Faithful : List Event → Prop
  | [] => True
  | .accepted device key :: log => (∀ known, trusted device.entryName log = some known → known = key) ∧ Faithful log
  | .forgot _ :: log => Faithful log

/-- No other key than this one is pinned. -/
def alone (store : Store) (e : Endpoint) (key : PKey) : Bool := (lookup store e).all (fun k => k = (key.name, key.bytes))

/-- A call that decides to accept its key finds no other one pinned, and no host is
forgotten while a call about it is between its decision and its return. -/
def undisturbed (s : State) : Action → Bool
  | .call _ _ => true
  | .advance i => (s.calls[i]?).all (fun c => match c.phase with
    | .started => verify s.store c.device c.key ≠ .isMatch || alone s.store c.device c.key
    | .pinning => alone s.store c.device c.key
    | _ => true)
  | .forget device => s.calls.all (fun c => c.phase ≠ .accepting || c.device.entryName ≠ device.entryName)

/-! ## What is pinned -/

/-- The key and no other one is pinned. -/
def Pinned (store : Store) (name : Str) (key : PKey) : Prop :=
  (Dict.get store name).getD [] ≠ [] ∧ ∀ k ∈ (Dict.get store name).getD [], k = (key.name, key.bytes)

theorem Pinned.unique {store : Store} {name : Str} {key key' : PKey} (h : Pinned store name key)
    (h' : Pinned store name key') : key = key' := by
  obtain ⟨hne, hall⟩ := h
  obtain ⟨k, hk⟩ := List.exists_mem_of_ne_nil _ hne
  have heq := (hall k hk).symm.trans (h'.2 k hk)
  cases key
  cases key'
  simpa using heq

theorem pinned_iff {store : Store} {e : Endpoint} {key : PKey} (h : alone store e key = true) (hne : lookup store e ≠ []) :
    Pinned store e.entryName key := by
  refine ⟨hne, fun k hk => ?_⟩
  simpa using List.all_eq_true.mp h k hk

/-- Where the pinned key is trusted, what is pinned alone is that key. -/
theorem Pinned.eq_of_alone {store : Store} {e : Endpoint} {key key' : PKey} (h : Pinned store e.entryName key)
    (ha : alone store e key' = true) : key = key' :=
  h.unique (pinned_iff ha h.1)

theorem pinned_of_match {store : Store} {e : Endpoint} {key : PKey} (h : verify store e key = .isMatch)
    (ha : alone store e key = true) : Pinned store e.entryName key := by
  apply pinned_iff ha
  intro hnone
  simp [verify, hnone] at h

theorem pinned_add {store : Store} {e : Endpoint} {key : PKey} (ha : alone store e key = true) :
    Pinned (add store e key) e.entryName key := by
  have hget : (Dict.get (add store e key) e.entryName).getD [] = Dict.set (lookup store e) key.name key.bytes := by
    simp [add, Dict.get_set]
  rw [Pinned, hget]
  constructor
  · intro hnil
    have hkey := Dict.get_set (lookup store e) key.name key.name key.bytes
    simp [hnil] at hkey
  · intro k hk
    rcases Dict.mem_set _ _ _ _ hk with rfl | hk
    · rfl
    · simpa using List.all_eq_true.mp ha k hk

theorem Pinned.add_other {store : Store} {name : Str} {key : PKey} (h : Pinned store name key) {e : Endpoint}
    (hne : e.entryName ≠ name) (other : PKey) : Pinned (add store e other) name key := by
  have hget : Dict.get (add store e other) name = Dict.get store name := by simp [add, Dict.get_set, hne]
  rw [Pinned, hget]
  exact h

theorem Pinned.forget_other {store : Store} {name : Str} {key : PKey} (h : Pinned store name key) {e : Endpoint}
    (hne : e.entryName ≠ name) : Pinned (forget store e) name key := by
  have hget : Dict.get (forget store e) name = Dict.get store name := by simp [forget, Dict.get_erase, hne]
  rw [Pinned, hget]
  exact h

/-! ## Trust on first use -/

/-- Where nothing but the key is pinned, pinning it keeps what is pinned of any entry. -/
theorem Pinned.add {store : Store} {name : Str} {key : PKey} (h : Pinned store name key) {e : Endpoint} {other : PKey}
    (ha : alone store e other = true) : Pinned (add store e other) name key := by
  by_cases hname : e.entryName = name
  · subst hname
    rw [h.eq_of_alone ha]
    exact pinned_add ha
  · exact h.add_other hname other

/-- What a call is about to accept, and what is trusted, is pinned and nothing else. -/
structure Inv (s : State) : Prop where
  accepting : ∀ c ∈ s.calls, c.phase = .accepting → Pinned s.store c.device.entryName c.key
  trusted : ∀ name key, trusted name s.log = some key → Pinned s.store name key
  faithful : Faithful s.log

variable {policy : HostKeyPolicyMode} {s s' : State}

theorem inv_advance (h : Inv s) {i : Nat} {c : Call} (hi : s.calls[i]? = some c)
    (hok : undisturbed s (.advance i) = true) (hstep : advance policy s i c = some s') : Inv s' := by
  have hc : c ∈ s.calls := List.mem_of_getElem? hi
  simp only [undisturbed, hi, Option.all_some] at hok
  unfold advance at hstep
  cases hphase : c.phase with
  | started =>
    simp only [hphase] at hstep hok
    cases hstep
    refine ⟨fun c' hc' hacc => ?_, h.trusted, h.faithful⟩
    rcases List.mem_or_eq_of_mem_set hc' with hc' | rfl
    · exact h.accepting c' hc' hacc
    · cases hv : verify s.store c.device c.key with
      | isMatch =>
        simp only [hv, ne_eq, not_true_eq_false, decide_false, Bool.false_or] at hok
        exact pinned_of_match hv hok
      | mismatch => simp [hv, afterVerify] at hacc
      | unknown => cases policy <;> simp [hv, afterVerify] at hacc
  | pinning =>
    simp only [hphase] at hstep hok
    cases hstep
    refine ⟨fun c' hc' hacc => ?_, fun name key ht => (h.trusted name key ht).add hok, h.faithful⟩
    rcases List.mem_or_eq_of_mem_set hc' with hc' | rfl
    · exact (h.accepting c' hc' hacc).add hok
    · exact pinned_add hok
  | accepting =>
    have hpinned := h.accepting c hc hphase
    simp only [hphase] at hstep
    cases hstep
    refine ⟨fun c' hc' hacc => ?_, fun name key ht => ?_, ?_, h.faithful⟩
    · rcases List.mem_or_eq_of_mem_set hc' with hc' | rfl
      · exact h.accepting c' hc' hacc
      · simp at hacc
    · rw [trusted_accepted] at ht
      split at ht
      · next hname =>
        cases ht
        exact hname ▸ hpinned
      · exact h.trusted name key ht
    · exact fun known ht => (h.trusted _ known ht).unique hpinned
  | done => simp [hphase] at hstep

theorem inv_forget (h : Inv s) {device : Endpoint} (hok : undisturbed s (.forget device) = true) :
    Inv { s with store := forget s.store device, log := .forgot device :: s.log } := by
  refine ⟨fun c hc hacc => ?_, fun name key ht => ?_, h.faithful⟩
  · have hother := List.all_eq_true.mp hok c hc
    simp only [hacc, ne_eq, not_true_eq_false, decide_false, Bool.false_or, decide_eq_true_eq] at hother
    exact (h.accepting c hc hacc).forget_other (fun heq => hother heq.symm)
  · rw [trusted_forgot] at ht
    split at ht
    · simp at ht
    · next hname => exact (h.trusted name key ht).forget_other hname

theorem inv_step (h : Inv s) {a : Action} (hok : undisturbed s a = true) (hstep : step policy s a = some s') : Inv s' := by
  cases a with
  | call device key =>
    cases hstep
    refine ⟨fun c hc hacc => ?_, h.trusted, h.faithful⟩
    rcases List.mem_append.mp hc with hc | hc
    · exact h.accepting c hc hacc
    · rw [List.mem_singleton.mp hc] at hacc
      simp at hacc
  | advance i =>
    obtain ⟨c, hi, hadvance⟩ := Option.bind_eq_some_iff.mp hstep
    exact inv_advance h hi hok hadvance
  | forget device =>
    cases hstep
    exact inv_forget h hok

/-- Undisturbed calls accept no other key than the one that is trusted. -/
theorem faithful (policy : HostKeyPolicyMode) (store : Store) {s : State}
    (h : Reach (step policy) (fun s a => undisturbed s a = true) (begin store) s) : Faithful s.log := by
  have hinv : Inv s := by
    apply h.invariant
    · exact ⟨fun c hc => by simp [begin] at hc, fun name key ht => by simp [begin, HostKeys.trusted] at ht, trivial⟩
    · intro s a s' hs hok hstep
      exact inv_step hs hok hstep
  exact hinv.faithful

def router : Endpoint := ⟨lit "10.23.0.1", 22⟩

def firstKey : PKey := ⟨lit "ssh-ed25519", lit "one"⟩

def secondKey : PKey := ⟨lit "ssh-ed25519", lit "two"⟩

/-- One call pins a key, the next one matches it, and another key is accepted only after a forget. -/
theorem pinned_and_replaced : ∃ s, Reach (step .tofu) (fun s a => undisturbed s a = true) (begin []) s ∧
    s.log = [.accepted router secondKey, .forgot router, .accepted router firstKey, .accepted router firstKey] ∧
    Faithful s.log := by
  have hrun : (run (fun s a => if undisturbed s a then step .tofu s a else none)
      [.call router firstKey, .advance 0, .advance 0, .advance 0, .call router firstKey, .advance 1, .advance 1,
       .forget router, .call router secondKey, .advance 2, .advance 2, .advance 2] (begin [])).any
      (fun s => s.log =
        [.accepted router secondKey, .forgot router, .accepted router firstKey, .accepted router firstKey]) = true := by
    with_unfolding_all decide
  obtain ⟨s, hs, hlog⟩ := (Option.any_eq_true _ _).mp hrun
  have hreach : Reach (step .tofu) (fun s a => undisturbed s a = true) (begin []) s :=
    Reach.run (fun _ _ hok => hok) _ .start hs
  exact ⟨s, hreach, by simpa using hlog, faithful .tofu [] hreach⟩

/-- Two calls find the host unknown, and each pins the key that it was shown. -/
theorem both_keys_accepted : ∃ s, Reach (step .tofu) (fun _ _ => True) (begin []) s ∧ ¬ Faithful s.log := by
  have hrun : (run (fun s a => if true then step .tofu s a else none)
      [.call router firstKey, .call router secondKey, .advance 0, .advance 1, .advance 0, .advance 0, .advance 1, .advance 1]
      (begin [])).any (fun s => s.log = [.accepted router secondKey, .accepted router firstKey]) = true := by
        with_unfolding_all decide
  obtain ⟨s, hs, hlog⟩ := (Option.any_eq_true _ _).mp hrun
  refine ⟨s, Reach.run (fun _ _ _ => trivial) _ .start hs, fun hfaithful => ?_⟩
  have hevents : s.log = [.accepted router secondKey, .accepted router firstKey] := by simpa using hlog
  rw [hevents] at hfaithful
  have hsame := hfaithful.1 firstKey (by with_unfolding_all decide)
  exact absurd hsame (by with_unfolding_all decide)

end HostKeys
