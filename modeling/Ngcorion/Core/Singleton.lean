import Ngcorion.Transition

/-!
# A background loop in one process

Every worker process competes for an advisory lock of the database; the one that
gets it starts the loop. The lock belongs to a connection and is free again the
moment the connection drops, while its process notices at its next check.
-/
namespace Singleton

open Transition

/-! ## The lock -/

/-- The connection that holds the lock, the number of the next connection, and the
connections that have dropped. -/
structure Server where
  holder : Option Nat
  next : Nat
  lost : List Nat

/-- `pg_try_advisory_lock` on a new connection -/
def tryLock (server : Server) : Option (Server × Nat) :=
  if server.holder = none then some ({ server with holder := some server.next, next := server.next + 1 }, server.next)
  else none

/-- `_release`: a connection that dropped has no lock to give back. -/
def release (server : Server) (conn : Option Nat) : Server :=
  if server.holder = conn then { server with holder := none } else server

/-- The connection drops. -/
def lose (server : Server) (conn : Nat) : Server :=
  { server with holder := if server.holder = some conn then none else server.holder, lost := conn :: server.lost }

/-! ## A worker -/

/-- Where `_run` and `stop` wait or are about to go on. -/
inductive Pc where
  | off
  | top
  /-- The pause is dealt with; the time for a look at the lock may have come. -/
  | due (paused : Bool)
  | trying (paused : Bool)
  /-- The lock is taken, and its connection on the way back from the thread. -/
  | got (paused : Bool) (conn : Nat)
  | checking
  | checked (held : Bool)
  | releasing
  | waiting
  /-- `stop`, when the task has ended. -/
  | ending
  | closing
  deriving DecidableEq

structure Worker where
  pc : Pc
  conn : Option Nat
  leading : Bool
  paused : Bool
  /-- `start` was called and `stop` not yet. -/
  started : Bool
  stopping : Bool

/-- Stop the loop unless it is paused, and lead no more. -/
def Worker.resign (w : Worker) : Worker :=
  { w with leading := false, started := w.paused && w.started, paused := false }

/-- The next step of a worker. The choice is whether the time for the lock has come,
or whether a query fails. -/
def advance (maintenance : Bool) (server : Server) (w : Worker) (choice : Bool) : Option (Server × Worker) :=
  match w.pc with
  | .off => none
  | .top =>
    if w.stopping then some (server, { w with pc := .ending })
    else if w.leading ∧ maintenance ≠ w.paused then
      some (server, { w with pc := .due maintenance, paused := maintenance, started := !maintenance })
    else some (server, { w with pc := .due maintenance })
  | .due paused =>
    if choice then
      match w.conn with
      | none => some (server, { w with pc := .trying paused })
      | some _ => some (server, { w with pc := .checking })
    else some (server, { w with pc := .waiting })
  | .trying paused =>
    match (if choice then none else tryLock server) with
    | some (server, conn) => some (server, { w with pc := .got paused conn })
    | none => some (server, { w with pc := .waiting })
  | .got paused conn =>
    some (server, { w with pc := .waiting, conn := some conn, leading := true, paused := paused,
                           started := !paused || w.started })
  | .checking => some (server, { w with pc := .checked (!choice && server.holder = w.conn) })
  | .checked held =>
    if held then some (server, { w with pc := .waiting })
    else some (server, { w.resign with pc := .releasing })
  | .releasing => some (release server w.conn, { w with pc := .top, conn := none })
  | .waiting => some (server, { w with pc := .top })
  | .ending => some (server, { (if w.leading then w.resign else w) with pc := .closing })
  | .closing => some (release server w.conn, { w with pc := .off, conn := none })

/-! ## The system -/

/-- The lock, the flag of a restore, the workers, and the lock attempts whose task was cancelled. -/
structure State where
  server : Server
  maintenance : Bool
  workers : List Worker
  orphans : Nat

inductive Action where
  | maintenance (on : Bool)
  | lose (conn : Nat)
  | start (worker : Nat)
  | stop (worker : Nat)
  | step (worker : Nat) (choice : Bool)
  /-- `stop` has waited long enough for the task. -/
  | cancel (worker : Nat)
  /-- A thread whose task was cancelled still asks for the lock. -/
  | orphan

/-- The task can be cancelled where it waits. -/
def Pc.awaits : Pc → Bool
  | .off => false
  | .top => false
  | .ending => false
  | .closing => false
  | _ => true

def setWorker (s : State) (i : Nat) (w : Worker) : State := { s with workers := s.workers.set i w }

def cancelled (s : State) (i : Nat) (w : Worker) : State :=
  { setWorker s i { w with pc := .ending } with
    orphans := match w.pc with
      | .trying _ => s.orphans + 1
      | _ => s.orphans }

def step (s : State) : Action → Option State
  | .maintenance on => some { s with maintenance := on }
  | .lose conn => some { s with server := lose s.server conn }
  | .start i => (s.workers[i]?).bind (fun w =>
      if w.pc = .off then some (setWorker s i { w with pc := .top, stopping := false }) else none)
  | .stop i => (s.workers[i]?).bind (fun w =>
      if w.pc = .off then none else some (setWorker s i { w with stopping := true }))
  | .step i choice => (s.workers[i]?).bind (fun w =>
      (advance s.maintenance s.server w choice).map (fun r => { setWorker s i r.2 with server := r.1 }))
  | .cancel i => (s.workers[i]?).bind (fun w => if w.stopping ∧ w.pc.awaits then some (cancelled s i w) else none)
  | .orphan =>
    if s.orphans = 0 then none
    else match tryLock s.server with
      | none => some { s with orphans := s.orphans - 1 }
      | some (server, _) => some { s with orphans := s.orphans - 1, server := server }

def idle : Worker := ⟨.off, none, false, false, false, false⟩

def begin (maintenance : Bool) (workers : Nat) : State := ⟨⟨none, 0, []⟩, maintenance, List.replicate workers idle, 0⟩

/-- The connection whose lock a worker counts on. -/
def Worker.connection (w : Worker) : Option Nat :=
  match w.pc with
  | .got _ conn => some conn
  | _ => w.conn

/-- When a worker takes the lock, no other still counts on a connection that has dropped. -/
def noticed (s : State) : Action → Bool
  | .step i choice => (s.workers[i]?).all (fun w =>
      match w.pc with
      | .trying _ => choice || s.server.holder ≠ none ||
          (others s.workers i).all (fun v => v.connection.all (fun conn => conn ∉ s.server.lost))
      | _ => true)
  | _ => true

/-- No two workers have the loop started. -/
def OneLoop (s : State) : Prop :=
  ∀ (i j : Nat) (w v : Worker), s.workers[i]? = some w → s.workers[j]? = some v →
    w.started = true → v.started = true → i = j

/-! ## What every step keeps -/

/-- A worker runs the loop only as the leader, the leader has a connection, and the
lock of a connection is lost only with the connection. -/
structure WorkerOk (server : Server) (w : Worker) : Prop where
  leads : w.started = true → w.leading = true
  connected : w.leading = true → w.conn ≠ none
  suspended : w.paused = true → w.started = false
  resigned : w.pc = .releasing ∨ w.pc = .closing → w.leading = false
  without : (∃ paused, w.pc = .trying paused) ∨ (∃ paused conn, w.pc = .got paused conn) ∨ w.pc = .off → w.conn = none
  holds : ∀ conn ∈ w.connection, server.holder = some conn ∨ conn ∈ server.lost

/-- Only what a worker knows of the lock depends on the server. -/
theorem WorkerOk.server {server server' : Server} {w : Worker} (h : WorkerOk server w)
    (hholds : ∀ conn ∈ w.connection, server'.holder = some conn ∨ conn ∈ server'.lost) : WorkerOk server' w :=
  { h with holds := hholds }

theorem WorkerOk.resign {server : Server} {w : Worker} (h : WorkerOk server w) : WorkerOk server w.resign := by
  have hstarted : w.resign.started = false := by
    cases hpaused : w.paused with
    | false => simp [Worker.resign, hpaused]
    | true => simp [Worker.resign, h.suspended hpaused]
  exact ⟨by simp [hstarted], by simp [Worker.resign], fun _ => hstarted, fun _ => rfl, h.without, h.holds⟩

theorem connection_ne_none {w : Worker} (h : w.conn ≠ none) : w.connection ≠ none := by
  unfold Worker.connection
  split
  · simp
  · exact h

theorem WorkerOk.conn_holds {server : Server} {w : Worker} (h : WorkerOk server w) :
    ∀ conn ∈ w.conn, server.holder = some conn ∨ conn ∈ server.lost := by
  intro conn hconn
  apply h.holds
  unfold Worker.connection
  split
  · rename_i paused c hpc
    rw [h.without (Or.inr (Or.inl ⟨paused, c, hpc⟩))] at hconn
    simp at hconn
  · exact hconn

/-- The places where nothing is known of the worker but its fields. -/
def Pc.plain : Pc → Bool
  | .top => true
  | .due _ => true
  | .checking => true
  | .checked _ => true
  | .waiting => true
  | .ending => true
  | _ => false

theorem connection_goto {w : Worker} {pc : Pc} (hpc : pc.plain = true) : { w with pc := pc }.connection = w.conn := by
  cases pc <;> first | rfl | simp [Pc.plain] at hpc

theorem WorkerOk.goto {server : Server} {w : Worker} (h : WorkerOk server w) (pc : Pc) (hpc : pc.plain = true) :
    WorkerOk server { w with pc := pc } where
  leads := h.leads
  connected := h.connected
  suspended := h.suspended
  resigned := by
    rintro (rfl | rfl) <;> simp [Pc.plain] at hpc
  without := by
    rintro (⟨_, rfl⟩ | ⟨_, _, rfl⟩ | rfl) <;> simp [Pc.plain] at hpc
  holds := by
    rw [connection_goto hpc]
    exact h.conn_holds

/-- A worker that leads no more gives its lock back. -/
theorem WorkerOk.leave {server : Server} {w : Worker} (h : WorkerOk server w) (hleading : w.leading = false) {pc : Pc}
    (hpc : pc = .releasing ∨ pc = .closing) : WorkerOk server { w with pc := pc } where
  leads := h.leads
  connected := h.connected
  suspended := h.suspended
  resigned := fun _ => hleading
  without := by
    rcases hpc with rfl | rfl <;> simp
  holds := by
    rcases hpc with rfl | rfl <;> exact h.conn_holds

/-- Pausing or resuming as the leader. -/
theorem WorkerOk.switch {server : Server} {w : Worker} (h : WorkerOk server w) (hleading : w.leading = true)
    (paused : Bool) : WorkerOk server { w with paused := paused, started := !paused } :=
  { h with leads := fun _ => hleading, suspended := by simp }

theorem tryLock_some {server server' : Server} {conn : Nat} (h : tryLock server = some (server', conn)) :
    server.holder = none ∧ server' = { server with holder := some conn, next := server.next + 1 } := by
  unfold tryLock at h
  split at h
  · rename_i hfree
    cases h
    exact ⟨hfree, rfl⟩
  · simp at h

/-- What a step of a worker does to the lock. -/
inductive Effect (server : Server) (w : Worker) (choice : Bool) : Server → Worker → Prop where
  | kept {w' : Worker} (h : w'.connection ≠ none → w.connection ≠ none) : Effect server w choice server w'
  | taken {w' : Worker} {paused : Bool} {conn : Nat} (at_lock : w.pc = .trying paused) (asked : choice = false)
      (free : server.holder = none) :
      Effect server w choice { server with holder := some conn, next := server.next + 1 } w'
  | released {w' : Worker} (h : w'.connection = none) (own : w.connection = w.conn) :
      Effect server w choice (release server w.conn) w'

theorem effect_goto {server : Server} {w : Worker} {choice : Bool} {pc : Pc} (hpc : pc.plain = true) :
    Effect server w choice server { w with pc := pc } :=
  .kept (by rw [connection_goto hpc]; exact connection_ne_none)

theorem advance_ok {maintenance choice : Bool} {server server' : Server} {w w' : Worker} (hok : WorkerOk server w)
    (h : advance maintenance server w choice = some (server', w')) :
    WorkerOk server' w' ∧ Effect server w choice server' w' := by
  unfold advance at h
  split at h
  case h_1 => simp at h
  case h_2 =>
    split at h
    · cases h
      exact ⟨hok.goto _ rfl, effect_goto rfl⟩
    · split at h
      · rename_i hswitch
        cases h
        exact ⟨(hok.switch hswitch.1 maintenance).goto _ rfl, .kept (fun hne => connection_ne_none hne)⟩
      · cases h
        exact ⟨hok.goto _ rfl, effect_goto rfl⟩
  case h_3 paused hpc =>
    split at h
    · split at h
      · rename_i hnone
        cases h
        refine ⟨⟨hok.leads, hok.connected, hok.suspended, by simp, fun _ => hnone, ?_⟩, .kept (fun hne => ?_)⟩
        · simp [Worker.connection, hnone]
        · exact absurd hnone hne
      · cases h
        exact ⟨hok.goto _ rfl, effect_goto rfl⟩
    · cases h
      exact ⟨hok.goto _ rfl, effect_goto rfl⟩
  case h_4 paused hpc =>
    split at h
    · rename_i taken hlock
      split at hlock
      · simp at hlock
      · rename_i hasked
        cases h
        obtain ⟨hfree, rfl⟩ := tryLock_some hlock
        have hnone := hok.without (Or.inl ⟨paused, hpc⟩)
        refine ⟨⟨hok.leads, hok.connected, hok.suspended, by simp, fun _ => hnone, ?_⟩,
          .taken hpc (by simpa using hasked) hfree⟩
        intro conn hconn
        exact Or.inl hconn
    · cases h
      exact ⟨hok.goto _ rfl, effect_goto rfl⟩
  case h_5 paused conn hpc =>
    cases h
    have hnone := hok.without (Or.inr (Or.inl ⟨paused, conn, hpc⟩))
    have hstopped : w.started = false := by
      by_contra hstarted
      exact hok.connected (hok.leads (by simpa using hstarted)) hnone
    have hmine : w.connection = some conn := by simp [Worker.connection, hpc]
    refine ⟨⟨fun _ => rfl, by simp, ?_, by simp, by simp, ?_⟩, .kept (fun _ => by simp [hmine])⟩
    · intro hpaused
      simp only at hpaused
      simp [hpaused, hstopped]
    · intro c hc
      exact hok.holds c (hmine ▸ hc)
  case h_6 =>
    cases h
    exact ⟨hok.goto _ rfl, effect_goto rfl⟩
  case h_7 held hpc =>
    split at h
    · cases h
      exact ⟨hok.goto _ rfl, effect_goto rfl⟩
    · cases h
      exact ⟨hok.resign.leave rfl (Or.inl rfl), .kept (fun hne => connection_ne_none hne)⟩
  case h_8 hpc =>
    cases h
    have hleading := hok.resigned (Or.inl hpc)
    refine ⟨⟨hok.leads, by simp [hleading], hok.suspended, by simp, by simp, by simp [Worker.connection]⟩,
      .released rfl (by simp [Worker.connection, hpc])⟩
  case h_9 =>
    cases h
    exact ⟨hok.goto _ rfl, effect_goto rfl⟩
  case h_10 hpc =>
    cases h
    cases hleading : w.leading with
    | true => exact ⟨hok.resign.leave rfl (Or.inr rfl), .kept (fun hne => connection_ne_none hne)⟩
    | false => exact ⟨hok.leave hleading (Or.inr rfl), .kept (fun hne => connection_ne_none hne)⟩
  case h_11 hpc =>
    cases h
    have hleading := hok.resigned (Or.inr hpc)
    refine ⟨⟨hok.leads, by simp [hleading], hok.suspended, by simp, by simp, by simp [Worker.connection]⟩,
      .released rfl (by simp [Worker.connection, hpc])⟩

/-- Every worker is in order, and at most one counts on a lock. -/
structure Inv (s : State) : Prop where
  each : ∀ (i : Nat) (w : Worker), s.workers[i]? = some w → WorkerOk s.server w
  unique : ∀ (i j : Nat) (w v : Worker), s.workers[i]? = some w → s.workers[j]? = some v →
    w.connection ≠ none → v.connection ≠ none → i = j

/-- A worker changes, and the others may go on as before. -/
theorem inv_set {s : State} {server : Server} {i : Nat} {w w' : Worker} (h : Inv s) (hi : s.workers[i]? = some w)
    (hw' : WorkerOk server w')
    (hothers : ∀ (j : Nat) (v : Worker), j ≠ i → s.workers[j]? = some v → WorkerOk server v)
    (honly : w'.connection ≠ none → w.connection ≠ none ∨
      ∀ (j : Nat) (v : Worker), j ≠ i → s.workers[j]? = some v → v.connection = none) :
    Inv { setWorker s i w' with server := server } where
  each := by
    intro j v hj
    rcases getElem_set_cases hj with ⟨-, rfl⟩ | ⟨hne, hj⟩
    · exact hw'
    · exact hothers j v hne hj
  unique := by
    -- Another worker that counts on a lock would have done so beside this one before.
    have hpair : ∀ (j : Nat) (v : Worker), j ≠ i → s.workers[j]? = some v → w'.connection ≠ none →
        v.connection = none := by
      intro j v hne hj hcounts
      rcases honly hcounts with hbefore | hnone
      · by_contra hv
        exact hne (h.unique j i v w hj hi hv hbefore)
      · exact hnone j v hne hj
    intro j k v u hj hk hv hu
    rcases getElem_set_cases hj with ⟨rfl, rfl⟩ | ⟨hjne, hbefore⟩
    · rcases getElem_set_cases hk with ⟨rfl, -⟩ | ⟨hkne, hbefore⟩
      · rfl
      · exact absurd (hpair k u hkne hbefore hv) hu
    · rcases getElem_set_cases hk with ⟨rfl, rfl⟩ | ⟨-, hbefore'⟩
      · exact absurd (hpair j v hjne hbefore hu) hv
      · exact h.unique j k v u hbefore hbefore' hv hu

theorem inv_advance {s : State} {i : Nat} {choice : Bool} {w w' : Worker} {server : Server} (h : Inv s)
    (hi : s.workers[i]? = some w) (hnoticed : noticed s (.step i choice) = true)
    (hstep : advance s.maintenance s.server w choice = some (server, w')) :
    Inv { setWorker s i w' with server := server } := by
  obtain ⟨hok, heffect⟩ := advance_ok (h.each i w hi) hstep
  cases heffect with
  | kept hkept => exact inv_set h hi hok (fun j v _ hj => h.each j v hj) (fun hne => Or.inl (hkept hne))
  | taken hpc hasked hfree =>
    have hnone : ∀ (j : Nat) (v : Worker), j ≠ i → s.workers[j]? = some v → v.connection = none := by
      intro j v hne hj
      simp only [noticed, hi, Option.all_some, hpc, hasked, hfree, ne_eq, not_true_eq_false, decide_false,
        Bool.false_or, List.all_eq_true] at hnoticed
      have hseen := hnoticed v (mem_others hne hj)
      cases hconn : v.connection with
      | none => rfl
      | some conn =>
        rcases (h.each j v hj).holds conn hconn with hholder | hlost
        · rw [hfree] at hholder
          simp at hholder
        · simp [hconn, hlost] at hseen
    refine inv_set h hi hok (fun j v hne hj => (h.each j v hj).server ?_) (fun _ => Or.inr hnone)
    simp [hnone j v hne hj]
  | released hnone hown =>
    refine inv_set h hi hok (fun j v hne hj => (h.each j v hj).server ?_) (fun hne => absurd hnone hne)
    intro conn hconn
    unfold release
    split
    · rename_i hmine
      -- The lock given back is this worker's, so the other one has lost its connection.
      rcases (h.each j v hj).holds conn hconn with hholder | hlost
      · have hboth : w.connection ≠ none := by rw [hown, ← hmine, hholder]; simp
        exact absurd (h.unique j i v w hj hi (by rw [Option.mem_def.mp hconn]; simp) hboth) hne
      · exact Or.inr hlost
    · exact (h.each j v hj).holds conn hconn

theorem inv_server {s : State} {server : Server} {maintenance : Bool} {orphans : Nat} (h : Inv s)
    (hserver : ∀ conn, s.server.holder = some conn ∨ conn ∈ s.server.lost →
      server.holder = some conn ∨ conn ∈ server.lost) : Inv ⟨server, maintenance, s.workers, orphans⟩ :=
  ⟨fun i w hi => (h.each i w hi).server (fun conn hconn => hserver conn ((h.each i w hi).holds conn hconn)), h.unique⟩

theorem inv_step {s s' : State} {a : Action} (h : Inv s) (hnoticed : noticed s a = true) (hstep : step s a = some s') :
    Inv s' := by
  cases a with
  | maintenance on =>
    cases hstep
    exact inv_server h (fun _ => id)
  | lose conn =>
    cases hstep
    apply inv_server h
    intro c hc
    rcases hc with hholder | hlost
    · by_cases hsame : c = conn
      · exact Or.inr (by simp [lose, hsame])
      · have hne : conn ≠ c := fun heq => hsame heq.symm
        exact Or.inl (by simp [lose, hholder, hsame])
    · exact Or.inr (by simp [lose, hlost])
  | start i =>
    simp only [step, Option.bind_eq_some_iff] at hstep
    obtain ⟨w, hi, hstep⟩ := hstep
    split at hstep
    · cases hstep
      have hok : WorkerOk s.server { w with pc := .top, stopping := false } :=
        { (h.each i w hi).goto .top rfl with }
      exact inv_set h hi hok (fun j v _ hj => h.each j v hj) (fun hne => Or.inl (connection_ne_none hne))
    · simp at hstep
  | stop i =>
    simp only [step, Option.bind_eq_some_iff] at hstep
    obtain ⟨w, hi, hstep⟩ := hstep
    split at hstep
    · simp at hstep
    · cases hstep
      have hok : WorkerOk s.server { w with stopping := true } := { h.each i w hi with }
      exact inv_set h hi hok (fun j v _ hj => h.each j v hj) (fun hne => Or.inl hne)
  | step i choice =>
    simp only [step, Option.bind_eq_some_iff, Option.map_eq_some_iff] at hstep
    obtain ⟨w, hi, ⟨server, w'⟩, hadvance, rfl⟩ := hstep
    exact inv_advance h hi hnoticed hadvance
  | cancel i =>
    simp only [step, Option.bind_eq_some_iff] at hstep
    obtain ⟨w, hi, hstep⟩ := hstep
    split at hstep
    · cases hstep
      have hset := inv_set h hi ((h.each i w hi).goto .ending rfl)
        (fun j v _ hj => h.each j v hj) (fun hne => Or.inl (connection_ne_none hne))
      exact ⟨hset.each, hset.unique⟩
    · simp at hstep
  | orphan =>
    simp only [step] at hstep
    split at hstep
    · simp at hstep
    · split at hstep
      · cases hstep
        exact inv_server h (fun _ => id)
      · rename_i server conn hlock
        cases hstep
        obtain ⟨hfree, rfl⟩ := tryLock_some hlock
        apply inv_server h
        intro c hc
        rcases hc with hholder | hlost
        · rw [hfree] at hholder
          simp at hholder
        · exact Or.inr hlost

/-- Where nobody takes the lock beside a worker that has not noticed its loss, the loop
runs in one worker. -/
theorem one_loop (maintenance : Bool) (workers : Nat) {s : State}
    (h : Reach step (fun s a => noticed s a = true) (begin maintenance workers) s) : OneLoop s := by
  have hinv : Inv s := by
    apply h.invariant
    · have hidle : ∀ (k : Nat) (u : Worker), (begin maintenance workers).workers[k]? = some u → u = idle := by
        intro k u hk
        exact List.eq_of_mem_replicate (List.mem_of_getElem? hk)
      constructor
      · intro k u hk
        rw [hidle k u hk]
        exact ⟨by simp [idle], by simp [idle], by simp [idle], by simp [idle], by simp [idle],
          by simp [idle, Worker.connection]⟩
      · intro k l u x hk _ hu
        rw [hidle k u hk] at hu
        simp [idle, Worker.connection] at hu
    · intro s a s' hs hnoticed hstep
      exact inv_step hs hnoticed hstep
  have hcounts : ∀ (k : Nat) (u : Worker), s.workers[k]? = some u → u.started = true → u.connection ≠ none :=
    fun k u hk hu => connection_ne_none ((hinv.each k u hk).connected ((hinv.each k u hk).leads hu))
  intro i j w v hi hj hw hv
  exact hinv.unique i j w v hi hj (hcounts i w hi hw) (hcounts j v hj hv)

/-- A worker starts, takes the lock and the loop with it. -/
def takes (i : Nat) : List Action := [.start i, .step i false, .step i true, .step i false, .step i false]

/-- The loop runs in one worker and then, after a stop, in another. -/
theorem loop_changes_hands :
    ∃ s, Reach step (fun s a => noticed s a = true) (begin false 2) s ∧ s.workers.map Worker.started = [false, true] ∧
      OneLoop s := by
  have hrun : (run (fun s a => if noticed s a then step s a else none)
      (takes 0 ++ [Action.stop 0, .step 0 false, .step 0 false, .step 0 false, .step 0 false] ++ takes 1) (begin false 2)).any
      (fun s => s.workers.map Worker.started = [false, true]) = true := by with_unfolding_all decide
  obtain ⟨s, hs, hstarted⟩ := (Option.any_eq_true _ _).mp hrun
  have hreach : Reach step (fun s a => noticed s a = true) (begin false 2) s := Reach.run (fun _ _ hok => hok) _ .start hs
  exact ⟨s, hreach, by simpa using hstarted, one_loop false 2 hreach⟩

/-- The connection of the first worker drops between two of its checks. -/
theorem two_loops :
    ∃ s, Reach step (fun _ _ => True) (begin false 2) s ∧ ¬ OneLoop s := by
  have hrun : (run (fun s a => if true then step s a else none) (takes 0 ++ [Action.lose 0] ++ takes 1) (begin false 2)).any
      (fun s => (s.workers[0]?).any Worker.started && (s.workers[1]?).any Worker.started) = true := by
        with_unfolding_all decide
  obtain ⟨s, hs, hboth⟩ := (Option.any_eq_true _ _).mp hrun
  simp only [Bool.and_eq_true, Option.any_eq_true] at hboth
  obtain ⟨⟨w, hw, hws⟩, v, hv, hvs⟩ := hboth
  refine ⟨s, Reach.run (fun _ _ _ => trivial) _ .start hs, fun hone => ?_⟩
  have := hone 0 1 w v hw hv hws hvs
  simp at this

end Singleton
