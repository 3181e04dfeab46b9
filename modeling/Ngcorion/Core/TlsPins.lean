import Ngcorion.Text
import Ngcorion.Dict
import Ngcorion.Transition

/-!
# Pinned TLS certificates

The pins of the devices in one file, which several worker processes share. A
certificate is known by its fingerprint. The lock is one of each process, so a
process runs one call at a time and the calls of different processes interleave.
-/
namespace TlsPins

open Text Transition

/-! ## The calls -/

structure Endpoint where
  host : Str
  port : Nat
  deriving DecidableEq

/-- `_key` -/
def Endpoint.key (e : Endpoint) : Str := '[' :: e.host ++ ']' :: ':' :: Nat.toDigits 10 e.port

/-- What `json.loads` gives for the file. -/
abbrev Pins := List (Str × Str)

inductive Policy where
  | tofu | strict
  deriving DecidableEq

inductive Call where
  | check (device : Endpoint) (seen : Str)
  | forget (device : Endpoint)
  deriving DecidableEq

def Call.device : Call → Endpoint
  | .check device _ => device
  | .forget device => device

/-- What a call does once it has read the pins. -/
inductive Decision where
  | accept
  | refuse
  | write (pins : Pins)

def decision (policy : Policy) (pins : Pins) : Call → Decision
  | .check device seen =>
    match Dict.get pins device.key with
    | some known => if known = seen then .accept else .refuse
    | none => if policy = .strict then .refuse else .write (Dict.set pins device.key seen)
  | .forget device =>
    match Dict.get pins device.key with
    | none => .refuse
    | some _ => .write (Dict.erase pins device.key)

/-! ## The file and the processes -/

/-- Where a process is: it holds no lock, it has read the pins, it has opened the
temporary file, or it has written that file and closed it. -/
inductive Phase where
  | idle
  | loaded (call : Call) (pins : Pins)
  | opened (call : Call) (new : Pins) (inode : Nat)
  | written (call : Call)
  deriving DecidableEq

inductive Event where
  | accepted (device : Endpoint) (certificate : Str)
  | forgot (device : Endpoint)
  deriving DecidableEq

/-- The contents of the files by inode (a file that is not JSON has none), the inodes
that the two names lead to, and what was accepted and forgotten, the last first. -/
structure State where
  contents : List (Option Pins)
  file : Option Nat
  tmp : Option Nat
  processes : List Phase
  log : List Event

/-- The content of a name; a name that leads nowhere is an empty set of pins. -/
def content (s : State) : Option Nat → Option Pins
  | none => some []
  | some inode => (s.contents[inode]?).join

/-- `_load`, nothing where the file is not JSON. -/
def load (s : State) : Option Pins := content s s.file

/-- Opening the temporary file to write empties the file there is or makes a new one. -/
def openTmp (s : State) : State × Nat :=
  match s.tmp with
  | some inode => ({ s with contents := s.contents.set inode none }, inode)
  | none => ({ s with contents := s.contents ++ [none], tmp := some s.contents.length }, s.contents.length)

def finished : Call → Event
  | .check device seen => .accepted device seen
  | .forget device => .forgot device

inductive Action where
  /-- A process takes its lock and reads the file. -/
  | start (process : Nat) (call : Call)
  | advance (process : Nat)

def setPhase (s : State) (process : Nat) (phase : Phase) : State :=
  { s with processes := s.processes.set process phase }

/-- The next step of a process that holds its lock. -/
def advance (policy : Policy) (s : State) (process : Nat) : Phase → Option State
  | .idle => none
  | .loaded call pins =>
    match decision policy pins call with
    | .accept => some { setPhase s process .idle with log := finished call :: s.log }
    | .refuse => some (setPhase s process .idle)
    | .write new => some (setPhase (openTmp s).1 process (.opened call new (openTmp s).2))
  | .opened call new inode =>
    some (setPhase { s with contents := s.contents.set inode (some new) } process (.written call))
  | .written call =>
    -- The temporary file may be gone: another process has renamed it.
    match s.tmp with
    | none => some (setPhase s process .idle)
    | some inode =>
      some { setPhase s process .idle with file := some inode, tmp := none, log := finished call :: s.log }

def step (policy : Policy) (s : State) : Action → Option State
  | .start process call =>
    if s.processes[process]? = some .idle then
      match load s with
      | none => some s
      | some pins => some (setPhase s process (.loaded call pins))
    else none
  | .advance process => (s.processes[process]?).bind (advance policy s process)

/-- A file with some pins and a number of processes. -/
def begin (pins : Option Pins) (workers : Nat) : State :=
  ⟨[pins], pins.map (fun _ => 0), none, List.replicate workers .idle, []⟩

/-! ## What the log says -/

/-- The certificate that was accepted last for a device and not forgotten since. -/
def trusted : List Event → Endpoint → Option Str
  | [], _ => none
  | .accepted device certificate :: log, e => if device = e then some certificate else trusted log e
  | .forgot device :: log, e => if device = e then none else trusted log e

/-- No check accepts another certificate than the one that is trusted. -/
def Faithful (log : List Event) : Prop :=
  ∀ later device certificate earlier, log = later ++ .accepted device certificate :: earlier →
    ∀ known, trusted earlier device = some known → known = certificate

/-- The call is going to write or is writing. -/
def writes (policy : Policy) : Phase → Bool
  | .idle => false
  | .loaded call pins => match decision policy pins call with
    | .write _ => true
    | _ => false
  | .opened _ _ _ => true
  | .written _ => true

/-- No call of another process writes while this one runs, and if it writes itself it runs alone. -/
def undisturbed (policy : Policy) (s : State) : Action → Bool
  | .start process call =>
    (others s.processes process).all (fun p => !writes policy p) &&
      (!((load s).any (fun pins => writes policy (.loaded call pins))) || (others s.processes process).all (fun p => p = .idle))
  | .advance _ => true

/-- The pin of a device. -/
def pin (s : State) (e : Endpoint) : Option Str := (load s).bind (fun pins => Dict.get pins e.key)

/-- The device of the call that takes a step. -/
def touched (s : State) : Action → Option Endpoint
  | .start _ call => some call.device
  | .advance process => (s.processes[process]?).bind (fun
    | .idle => none
    | .loaded call _ => some call.device
    | .opened call _ _ => some call.device
    | .written call => some call.device)

/-! ## Keys -/

theorem Endpoint.key_inj {e e' : Endpoint} (h : e.key = e'.key) : e = e' := by
  simp only [Endpoint.key, List.cons_append, List.cons.injEq, true_and] at h
  have hsplit : (e.host ++ [']']) ++ ':' :: Nat.toDigits 10 e.port =
      (e'.host ++ [']']) ++ ':' :: Nat.toDigits 10 e'.port := by simpa using h
  obtain ⟨hhost, hport⟩ := split_last_inj (not_mem_digits (by decide) _) (not_mem_digits (by decide) _) hsplit
  rw [List.append_cancel_right_eq] at hhost
  cases e
  cases e'
  exact congr (congrArg Endpoint.mk hhost) (digits_inj hport)

/-! ## What every step keeps -/

/-- What a process that runs its call knows of the files. -/
def PhaseOk (policy : Policy) (s : State) : Phase → Prop
  | .idle => True
  | .loaded _ pins => load s = some pins
  | .opened call new inode => s.tmp = some inode ∧ ∃ pins, load s = some pins ∧ decision policy pins call = .write new
  | .written call => ∃ pins new inode, s.tmp = some inode ∧ content s (some inode) = some new ∧
      load s = some pins ∧ decision policy pins call = .write new

structure Inv (policy : Policy) (s : State) : Prop where
  readable : ∃ pins, load s = some pins
  pinned : ∀ pins, load s = some pins → ∀ e c, trusted s.log e = some c → Dict.get pins e.key = some c
  faithful : Faithful s.log
  apart : ∀ inode, s.tmp = some inode → s.file ≠ some inode ∧ inode < s.contents.length
  phases : ∀ (p : Nat) (phase : Phase), s.processes[p]? = some phase → PhaseOk policy s phase
  alone : ∀ (p : Nat) (phase : Phase), s.processes[p]? = some phase → writes policy phase = true →
    ∀ (q : Nat) (phase' : Phase), q ≠ p → s.processes[q]? = some phase' → phase' = .idle

theorem faithful_cons {log : List Event} (h : Faithful log) {event : Event}
    (hevent : ∀ device certificate, event = .accepted device certificate → ∀ known, trusted log device = some known →
      known = certificate) : Faithful (event :: log) := by
  intro later device certificate earlier hlog known hknown
  cases later with
  | nil =>
    simp only [List.nil_append, List.cons.injEq] at hlog
    obtain ⟨rfl, rfl⟩ := hlog
    exact hevent device certificate rfl known hknown
  | cons first later =>
    simp only [List.cons_append, List.cons.injEq] at hlog
    exact h later device certificate earlier hlog.2 known hknown

section
variable {policy : Policy} {s s' : State} {process : Nat}

/-- A process ends its call without a change of the files. -/
theorem inv_end (h : Inv policy s) {log : List Event} (hfaithful : Faithful log)
    (hpinned : ∀ pins, load s = some pins → ∀ e c, trusted log e = some c → Dict.get pins e.key = some c) :
    Inv policy { setPhase s process .idle with log := log } where
  readable := h.readable
  pinned := hpinned
  faithful := hfaithful
  apart := h.apart
  phases := by
    intro p phase hp
    rcases getElem_set_cases hp with ⟨-, rfl⟩ | ⟨-, hp⟩
    · trivial
    · cases phase with
      | idle => trivial
      | loaded call pins => exact h.phases p _ hp
      | opened call new inode => exact h.phases p _ hp
      | written call => exact h.phases p _ hp
  alone := by
    intro p phase hp hwrites q phase' hne hq
    rcases getElem_set_cases hp with ⟨-, rfl⟩ | ⟨hne', hp⟩
    · simp [writes] at hwrites
    · rcases getElem_set_cases hq with ⟨-, rfl⟩ | ⟨-, hq⟩
      · rfl
      · exact h.alone p phase hp hwrites q phase' hne hq

/-- A process that writes takes a step, and every other process is idle. -/
theorem inv_writer {phase new : Phase} (h : Inv policy s) (hp : s.processes[process]? = some phase)
    (hwrites : writes policy phase = true) (hprocesses : s'.processes = s.processes) (hlog : s'.log = s.log)
    (hload : load s' = load s)
    (hapart : ∀ inode, s'.tmp = some inode → s'.file ≠ some inode ∧ inode < s'.contents.length)
    (hnew : PhaseOk policy (setPhase s' process new) new) : Inv policy (setPhase s' process new) := by
  have hidle : ∀ (q : Nat) (phase' : Phase), q ≠ process → s'.processes[q]? = some phase' → phase' = .idle := by
    intro q phase' hne hq
    rw [hprocesses] at hq
    exact h.alone process phase hp hwrites q phase' hne hq
  have hsame : load (setPhase s' process new) = load s := hload
  constructor
  · rw [hsame]
    exact h.readable
  · rw [hsame]
    exact hlog ▸ h.pinned
  · exact hlog ▸ h.faithful
  · exact hapart
  · intro q phase' hq
    rcases getElem_set_cases hq with ⟨-, rfl⟩ | ⟨hne, hq⟩
    · exact hnew
    · rw [hidle q phase' hne hq]
      trivial
  · intro q phase' hq hwrites' r phase'' hne hr
    rcases getElem_set_cases hq with ⟨rfl, -⟩ | ⟨hqne, hq⟩
    · rcases getElem_set_cases hr with ⟨rfl, -⟩ | ⟨hrne, hr⟩
      · exact absurd rfl hne
      · exact hidle r phase'' hrne hr
    · rw [hidle q phase' hqne hq] at hwrites'
      simp [writes] at hwrites'

/-- The file is read from an inode that exists. -/
theorem file_lt (h : Inv policy s) {inode : Nat} (hfile : s.file = some inode) : inode < s.contents.length := by
  obtain ⟨pins, hpins⟩ := h.readable
  simp only [load, hfile, content] at hpins
  by_contra hle
  rw [List.getElem?_eq_none (by omega)] at hpins
  simp at hpins

/-- Another inode than the file's may change. -/
theorem load_of_contents (h : s'.file = s.file)
    (hcontents : ∀ inode, s.file = some inode → s'.contents[inode]? = s.contents[inode]?) : load s' = load s := by
  simp only [load, h]
  cases hfile : s.file with
  | none => rfl
  | some inode => simp only [content, hcontents inode hfile]

/-- The temporary file is not the file that is read. -/
theorem load_set_tmp (h : Inv policy s) {inode : Nat} (htmp : s.tmp = some inode) (x : Option Pins) :
    load { s with contents := s.contents.set inode x } = load s := by
  apply load_of_contents
  · rfl
  · intro file hfile
    have hne : inode ≠ file := by
      rintro rfl
      exact (h.apart inode htmp).1 hfile
    exact List.getElem?_set_ne hne

theorem load_openTmp (h : Inv policy s) : load (openTmp s).1 = load s := by
  unfold openTmp
  split
  · rename_i inode htmp
    exact load_set_tmp h htmp none
  · apply load_of_contents
    · rfl
    · intro file hfile
      exact List.getElem?_append_left (file_lt h hfile)

theorem apart_openTmp (h : Inv policy s) :
    (openTmp s).1.tmp = some (openTmp s).2 ∧ (openTmp s).1.file ≠ some (openTmp s).2 ∧
      (openTmp s).2 < (openTmp s).1.contents.length := by
  unfold openTmp
  split
  · rename_i inode htmp
    obtain ⟨hfile, hlt⟩ := h.apart inode htmp
    exact ⟨htmp, hfile, by simpa using hlt⟩
  · refine ⟨rfl, fun hfile => ?_, by simp⟩
    have := file_lt h hfile
    omega

/-- What the new file has for each device, once the call is done. -/
theorem get_of_decision {pins new : Pins} {call : Call} {log : List Event} (h : decision policy pins call = .write new)
    (hpinned : ∀ e c, trusted log e = some c → Dict.get pins e.key = some c) :
    (∀ e c, trusted (finished call :: log) e = some c → Dict.get new e.key = some c) ∧
    (∀ e, e ≠ call.device → Dict.get new e.key = Dict.get pins e.key) ∧
    ∀ device certificate, finished call = .accepted device certificate → ∀ known, trusted log device = some known →
      known = certificate := by
  cases call with
  | check device seen =>
    simp only [decision] at h
    split at h
    · split at h <;> simp at h
    · rename_i hnone
      split at h
      · simp at h
      · cases h
        refine ⟨?_, ?_, ?_⟩
        · intro e c hc
          simp only [finished, trusted] at hc
          rw [Dict.get_set]
          split at hc
          · rename_i hdevice
            simpa [hdevice] using hc
          · rename_i hdevice
            rw [if_neg (fun hkey => hdevice (Endpoint.key_inj hkey))]
            exact hpinned e c hc
        · intro e hne
          have hkey : device.key ≠ e.key := fun hkey => hne (Endpoint.key_inj hkey).symm
          rw [Dict.get_set, if_neg hkey]
        · intro device' certificate heq known hknown
          cases heq
          rw [hpinned device known hknown] at hnone
          simp at hnone
  | forget device =>
    simp only [decision] at h
    split at h
    · simp at h
    · cases h
      refine ⟨?_, ?_, by simp [finished]⟩
      · intro e c hc
        simp only [finished, trusted] at hc
        split at hc
        · simp at hc
        · rename_i hdevice
          rw [Dict.get_erase, if_neg (fun hkey => hdevice (Endpoint.key_inj hkey))]
          exact hpinned e c hc
      · intro e hne
        have hkey : device.key ≠ e.key := fun hkey => hne (Endpoint.key_inj hkey).symm
        rw [Dict.get_erase, if_neg hkey]

/-- A check that finds its certificate pinned. -/
theorem accept_cases {pins : Pins} {call : Call} (h : decision policy pins call = .accept) :
    ∃ device seen, call = .check device seen ∧ Dict.get pins device.key = some seen := by
  cases call with
  | check device seen =>
    simp only [decision] at h
    split at h
    · rename_i known hknown
      split at h
      · rename_i heq
        exact ⟨device, seen, rfl, heq ▸ hknown⟩
      · simp at h
    · split at h <;> simp at h
  | forget device =>
    simp only [decision] at h
    split at h <;> simp at h

theorem inv_start (h : Inv policy s) {call : Call} (hallowed : undisturbed policy s (.start process call) = true)
    (hstep : step policy s (.start process call) = some s') : Inv policy s' := by
  simp only [step] at hstep
  split at hstep
  · split at hstep
    · cases hstep
      exact h
    · rename_i pins hpins
      cases hstep
      simp only [undisturbed, hpins, Option.any_some, Bool.and_eq_true, Bool.or_eq_true, Bool.not_eq_true',
        List.all_eq_true, decide_eq_true_eq] at hallowed
      obtain ⟨hquiet, halone⟩ := hallowed
      refine ⟨h.readable, h.pinned, h.faithful, h.apart, ?_, ?_⟩
      · intro q phase hq
        rcases getElem_set_cases hq with ⟨-, rfl⟩ | ⟨-, hq⟩
        · exact hpins
        · cases phase with
          | idle => trivial
          | loaded call pins => exact h.phases q _ hq
          | opened call new inode => exact h.phases q _ hq
          | written call => exact h.phases q _ hq
      · intro q phase hq hwrites r phase' hne hr
        rcases getElem_set_cases hq with ⟨rfl, rfl⟩ | ⟨hqne, hq⟩
        · rcases getElem_set_cases hr with ⟨rfl, -⟩ | ⟨-, hr⟩
          · exact absurd rfl hne
          · rcases halone with hnot | hidle
            · rw [hwrites] at hnot
              simp at hnot
            · exact hidle phase' (mem_others hne hr)
        · rw [hquiet phase (mem_others hqne hq)] at hwrites
          simp at hwrites
  · simp at hstep

theorem inv_loaded (h : Inv policy s) {call : Call} {pins : Pins}
    (hp : s.processes[process]? = some (.loaded call pins))
    (hstep : advance policy s process (.loaded call pins) = some s') : Inv policy s' := by
  have hload : load s = some pins := h.phases process _ hp
  simp only [advance] at hstep
  split at hstep
  · rename_i haccept
    cases hstep
    obtain ⟨device, seen, rfl, hseen⟩ := accept_cases haccept
    apply inv_end h
    · apply faithful_cons h.faithful
      intro device' certificate heq known hknown
      cases heq
      rw [h.pinned pins hload device known hknown] at hseen
      exact Option.some.inj hseen
    · intro pins' hpins' e c hc
      rw [hload] at hpins'
      cases hpins'
      simp only [finished, trusted] at hc
      split at hc
      · rename_i hdevice
        rw [← hdevice, hseen, hc]
      · exact h.pinned pins hload e c hc
  · cases hstep
    exact inv_end h h.faithful h.pinned
  · rename_i new hwrite
    cases hstep
    obtain ⟨htmp, hfile, hlt⟩ := apart_openTmp h
    have hprocesses : (openTmp s).1.processes = s.processes := by unfold openTmp; split <;> rfl
    have hlog : (openTmp s).1.log = s.log := by unfold openTmp; split <;> rfl
    apply inv_writer h hp (by simp [writes, hwrite]) hprocesses hlog (load_openTmp h)
    · intro inode hinode
      rw [htmp] at hinode
      cases hinode
      exact ⟨hfile, hlt⟩
    · exact ⟨htmp, pins, (load_openTmp h).trans hload, hwrite⟩

theorem inv_opened (h : Inv policy s) {call : Call} {new : Pins} {inode : Nat}
    (hp : s.processes[process]? = some (.opened call new inode))
    (hstep : advance policy s process (.opened call new inode) = some s') : Inv policy s' := by
  obtain ⟨htmp, pins, hload, hdecision⟩ := h.phases process _ hp
  obtain ⟨-, hlt⟩ := h.apart inode htmp
  cases hstep
  have hsame := load_set_tmp h htmp (some new)
  refine inv_writer h hp rfl ?_ ?_ hsame ?_ ?_
  · rfl
  · rfl
  · intro inode' hinode'
    obtain ⟨hfile', hlt'⟩ := h.apart inode' hinode'
    exact ⟨hfile', by simpa using hlt'⟩
  · refine ⟨pins, new, inode, htmp, ?_, hsame.trans hload, hdecision⟩
    simp [setPhase, content, hlt]

theorem inv_written (h : Inv policy s) {call : Call} (hp : s.processes[process]? = some (.written call))
    (hstep : advance policy s process (.written call) = some s') : Inv policy s' := by
  obtain ⟨pins, new, inode, htmp, hcontent, hload, hdecision⟩ := h.phases process _ hp
  simp only [advance, htmp] at hstep
  cases hstep
  obtain ⟨hpinned, -, hfaithful⟩ := get_of_decision hdecision (h.pinned pins hload)
  have hidle : ∀ (q : Nat) (phase : Phase), (setPhase s process .idle).processes[q]? = some phase → phase = .idle := by
    intro q phase hq
    rcases getElem_set_cases hq with ⟨-, rfl⟩ | ⟨hne, hq⟩
    · rfl
    · exact h.alone process _ hp rfl q phase hne hq
  constructor
  · exact ⟨new, hcontent⟩
  · intro pins' hpins'
    have hnew : pins' = new := Option.some.inj (hpins'.symm.trans hcontent)
    rw [hnew]
    exact hpinned
  · exact faithful_cons h.faithful hfaithful
  · intro inode' hinode'
    simp at hinode'
  · intro q phase hq
    rw [hidle q phase hq]
    trivial
  · intro q phase hq hwrites
    rw [hidle q phase hq] at hwrites
    simp [writes] at hwrites

theorem inv_step {a : Action} (h : Inv policy s) (hallowed : undisturbed policy s a = true)
    (hstep : step policy s a = some s') : Inv policy s' := by
  cases a with
  | start process call => exact inv_start h hallowed hstep
  | advance process =>
    simp only [step, Option.bind_eq_some_iff] at hstep
    obtain ⟨phase, hp, hstep⟩ := hstep
    cases phase with
    | idle => simp [advance] at hstep
    | loaded call pins => exact inv_loaded h hp hstep
    | opened call new inode => exact inv_opened h hp hstep
    | written call => exact inv_written h hp hstep

theorem pin_of_load {e : Endpoint} (h : load s' = load s) : pin s' e = pin s e := by simp only [pin, h]

/-- A step changes no pin but that of its own device. -/
theorem pin_step {a : Action} (h : Inv policy s) (hstep : step policy s a = some s') {e : Endpoint}
    (he : touched s a ≠ some e) : pin s' e = pin s e := by
  cases a with
  | start process call =>
    simp only [step] at hstep
    split at hstep
    · split at hstep
      · cases hstep
        rfl
      · cases hstep
        exact pin_of_load rfl
    · simp at hstep
  | advance process =>
    simp only [step, Option.bind_eq_some_iff] at hstep
    obtain ⟨phase, hp, hstep⟩ := hstep
    cases phase with
    | idle => simp [advance] at hstep
    | loaded call pins =>
      simp only [advance] at hstep
      split at hstep
      · cases hstep
        exact pin_of_load rfl
      · cases hstep
        exact pin_of_load rfl
      · cases hstep
        exact pin_of_load (load_openTmp h)
    | opened call new inode =>
      obtain ⟨htmp, -⟩ := h.phases process _ hp
      cases hstep
      exact pin_of_load (load_set_tmp h htmp (some new))
    | written call =>
      obtain ⟨pins, new, inode, htmp, hcontent, hload, hdecision⟩ := h.phases process _ hp
      obtain ⟨-, hframe, -⟩ := get_of_decision hdecision (h.pinned pins hload)
      simp only [touched, hp, Option.bind_some, ne_eq, Option.some.injEq] at he
      simp only [advance, htmp] at hstep
      cases hstep
      have hnew : load { setPhase s process .idle with file := some inode, tmp := none, log := finished call :: s.log } =
          some new := hcontent
      simp only [pin, hnew, hload, Option.bind_some]
      exact hframe e (fun heq => he heq.symm)

end

theorem inv_begin (policy : Policy) (pins : Option Pins) (workers : Nat) : Inv policy (begin pins workers) := by
  have hidle : ∀ (p : Nat) (phase : Phase), (begin pins workers).processes[p]? = some phase → phase = .idle := by
    intro p phase hp
    exact List.eq_of_mem_replicate (List.mem_of_getElem? hp)
  constructor
  · cases pins with
    | none => exact ⟨[], rfl⟩
    | some pins => exact ⟨pins, rfl⟩
  · intro pins' _ e c hc
    simp [begin, trusted] at hc
  · intro later device certificate earlier hlog
    simp [begin] at hlog
  · intro inode hinode
    simp [begin] at hinode
  · intro p phase hp
    rw [hidle p phase hp]
    trivial
  · intro p phase hp hwrites
    rw [hidle p phase hp] at hwrites
    simp [writes] at hwrites

/-- Where a call that writes overlaps no call of another process: no certificate is accepted
but the trusted one, the file can be read, and a step leaves the pins of other devices. -/
theorem pins_survive (policy : Policy) (pins : Option Pins) (workers : Nat) {s : State}
    (h : Reach (step policy) (fun s a => undisturbed policy s a = true) (begin pins workers) s) :
    Faithful s.log ∧ (load s).isSome = true ∧ ∀ a s', undisturbed policy s a = true → step policy s a = some s' →
      ∀ e, touched s a ≠ some e → pin s' e = pin s e := by
  have hinv : Inv policy s := by
    apply h.invariant
    · exact inv_begin policy pins workers
    · intro s a s' hs hallowed hstep
      exact inv_step hs hallowed hstep
  obtain ⟨current, hcurrent⟩ := hinv.readable
  exact ⟨hinv.faithful, by simp [hcurrent], fun a s' _ hstep e he => pin_step hinv hstep he⟩

def firewall : Endpoint := ⟨lit "10.0.0.1", 4444⟩

def gateway : Endpoint := ⟨lit "10.0.0.2", 4444⟩

/-- The certificate of each device on first contact, one process after the other. -/
def firstContacts : List Action :=
  [.start 0 (.check firewall (lit "SHA256:aa")), .advance 0, .advance 0, .advance 0,
    .start 1 (.check gateway (lit "SHA256:bb")), .advance 1, .advance 1, .advance 1]

theorem both_pins_survive :
    ∃ s, Reach (step .tofu) (fun s a => undisturbed .tofu s a = true) (begin none 2) s ∧
      pin s firewall = some (lit "SHA256:aa") ∧ pin s gateway = some (lit "SHA256:bb") ∧
      Faithful s.log ∧ (load s).isSome = true ∧ ∀ a s', undisturbed .tofu s a = true → step .tofu s a = some s' →
        ∀ e, touched s a ≠ some e → pin s' e = pin s e := by
  have hrun : (run (fun s a => if undisturbed .tofu s a then step .tofu s a else none) firstContacts
      (begin none 2)).any (fun s => pin s firewall = some (lit "SHA256:aa") &&
        pin s gateway = some (lit "SHA256:bb")) = true := by with_unfolding_all decide
  obtain ⟨s, hs, hpins⟩ := (Option.any_eq_true _ _).mp hrun
  simp only [Bool.and_eq_true, decide_eq_true_eq] at hpins
  have hreach : Reach (step .tofu) (fun s a => undisturbed .tofu s a = true) (begin none 2) s :=
    Reach.run (fun _ _ hok => hok) _ .start hs
  exact ⟨s, hreach, hpins.1, hpins.2, pins_survive .tofu none 2 hreach⟩

/-- Both processes read the empty file; then another certificate is presented for the first device. -/
def lostPin : List Action :=
  [.start 0 (.check firewall (lit "SHA256:aa")), .start 1 (.check gateway (lit "SHA256:bb")),
    .advance 0, .advance 0, .advance 0, .advance 1, .advance 1, .advance 1,
    .start 0 (.check firewall (lit "SHA256:ee")), .advance 0, .advance 0, .advance 0]

/-- One process renames the temporary file when the other has just emptied it. -/
def emptied : List Action :=
  [.start 0 (.check firewall (lit "SHA256:aa")), .start 1 (.check gateway (lit "SHA256:bb")),
    .advance 0, .advance 0, .advance 1, .advance 0]

/-- A second certificate is accepted for a device, and the file is not JSON. -/
theorem pins_lost :
    (∃ s, Reach (step .tofu) (fun _ _ => True) (begin none 2) s ∧ ¬ Faithful s.log) ∧
    ∃ s, Reach (step .tofu) (fun _ _ => True) (begin none 2) s ∧ (load s).isSome = false := by
  constructor
  · have hrun : (run (fun s a => if true then step .tofu s a else none) lostPin (begin none 2)).any
        (fun s => s.log = [.accepted firewall (lit "SHA256:ee"), .accepted gateway (lit "SHA256:bb"),
          .accepted firewall (lit "SHA256:aa")]) = true := by with_unfolding_all decide
    obtain ⟨s, hs, hlog⟩ := (Option.any_eq_true _ _).mp hrun
    rw [decide_eq_true_eq] at hlog
    refine ⟨s, Reach.run (fun _ _ _ => trivial) _ .start hs, fun hfaithful => ?_⟩
    have hsame := hfaithful [] firewall (lit "SHA256:ee") _ hlog (lit "SHA256:aa") (by with_unfolding_all decide)
    have hdiffer : (lit "SHA256:aa" : Str) ≠ lit "SHA256:ee" := by with_unfolding_all decide
    exact hdiffer hsame
  · have hrun : (run (fun s a => if true then step .tofu s a else none) emptied (begin none 2)).any
        (fun s => !(load s).isSome) = true := by with_unfolding_all decide
    obtain ⟨s, hs, hload⟩ := (Option.any_eq_true _ _).mp hrun
    exact ⟨s, Reach.run (fun _ _ _ => trivial) _ .start hs, by simpa using hload⟩

end TlsPins
