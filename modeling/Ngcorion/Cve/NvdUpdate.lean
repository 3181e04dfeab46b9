import Mathlib.Data.List.Nodup
import Ngcorion.Cve.CveStore
import Ngcorion.Transition

/-!
# The update of the CVE database from NVD

A run asks NVD page by page for the records that changed since the last one, while NVD goes on
changing them, and writes what it got. The clock and the times of NVD are microseconds, the times
of a run full seconds.
-/
namespace NvdUpdate

open CveStore Transition

variable {F : Type}

/-! ## NVD -/

/-- A CVE at NVD; `data` has the other fields as they are normalised. -/
structure Cve (F : Type) where
  id : CveId
  lastModified : Nat
  rejected : Bool
  data : Record F

def second : Nat := 1000000

/-- `normalize_nvd_cve` -/
def Cve.normalize (c : Cve F) : Record F :=
  if c.rejected then ⟨c.id, true, none, none, none, none, ⟨none, none, none, none⟩, none, [], []⟩
  else { c.data with id := c.id, rejected := false, modified := some (c.lastModified / second) }

/-- The dates of a query, if it has any. -/
abbrev Window := Option (Nat × Nat)

def Window.has (w : Window) (c : Cve F) : Bool :=
  match w with
  | none => true
  | some (lo, hi) => lo * second ≤ c.lastModified && c.lastModified ≤ hi * second

/-- The answer to a query, before it is cut. -/
def matching (w : Window) (feed : List (Cve F)) : List (Cve F) := feed.filter (Window.has w)

/-- The records of NVD in the order of its answers. A record changes in its place, and a new one
comes anywhere. -/
def revise (c : Cve F) (feed : List (Cve F)) : List (Cve F) := feed.map (fun d => if d.id = c.id then c else d)

def publish (k : Nat) (c : Cve F) (feed : List (Cve F)) : List (Cve F) := feed.take k ++ c :: feed.drop k

/-- The most records that NVD gives on a page. -/
structure Server where
  limit : Nat
  positive : 0 < limit

/-! ## The client -/

/-- `PAGE_SIZE` -/
def pageSize : Nat := 2000

/-- The length of a page, which NVD tells as `resultsPerPage`. -/
def Server.page (server : Server) : Nat := min pageSize server.limit

/-- `MAX_WINDOW` -/
def maxWindow : Nat := 120 * 86400

/-- The loop that divides a time into windows. -/
def windowsFrom : Nat → Nat → Nat → List Window
  | 0, _, _ => []
  | fuel + 1, cursor, finish =>
    if cursor < finish then
      some (cursor, min (cursor + maxWindow) finish) :: windowsFrom fuel (min (cursor + maxWindow) finish) finish
    else []

/-- The windows of `NvdClient.pages`. -/
def windows (start : Option Nat) (finish : Nat) : List Window :=
  match start with
  | none => [none]
  | some start => windowsFrom (finish - start) start finish

/-- A run in progress: its start and end, the windows that are left, of which the first is being
asked for from an index on, the number of records that NVD told last, and what was downloaded. -/
structure Job (F : Type) where
  start : Option Nat
  finish : Nat
  windows : List Window
  index : Nat
  total : Option Nat
  spool : List (Record F)

/-- `while total is None or index < total` -/
def Job.more (j : Job F) : Bool := j.total.all (fun total => j.index < total)

structure State (F : Type) where
  clock : Nat
  feed : List (Cve F)
  db : Db F
  watermark : Option Nat
  job : Option (Job F)

inductive Action (F : Type) where
  | tick (microseconds : Nat)
  | revise (id : CveId) (rejected : Bool) (data : Record F)
  | publish (k : Nat) (id : CveId) (rejected : Bool) (data : Record F)
  | start (full : Bool)
  | page
  | window
  | commit (now : Nat → Nat) (kev : Option (List KevItem)) (epss : Option (List (CveId × F × F)))
  | fail

/-- The window that is being asked for has been read to its end. -/
def nextWindow (j : Job F) : Option (Job F) :=
  match j.windows with
  | [] => none
  | _ :: rest => if j.more then none else some { j with windows := rest, index := 0, total := none }

/-- One request of `pages`. -/
def nextPage (server : Server) (feed : List (Cve F)) (j : Job F) : Option (Job F) :=
  match j.windows with
  | [] => none
  | w :: _ =>
    if j.more then
      some { j with
        index := j.index + server.page
        total := some (matching w feed).length
        spool := j.spool ++ (((matching w feed).drop j.index).take server.page).map Cve.normalize }
    else none

/-- `_apply`; a list of another feed is none where it was not read or is older than the last one. -/
def applyAll (now : Nat → Nat) (kev : Option (List KevItem)) (epss : Option (List (CveId × F × F)))
    (records : List (Record F)) (db : Db F) : Option (Db F) :=
  (apply_cves now records db).map (fun db =>
    let db := kev.elim db (fun items => apply_kev (now 0) items db)
    epss.elim db (fun rows => apply_epss rows db))

def step (server : Server) (s : State F) : Action F → Option (State F)
  | .tick microseconds => some { s with clock := s.clock + microseconds }
  | .revise id rejected data =>
    if id ∈ s.feed.map Cve.id then some { s with feed := revise ⟨id, s.clock, rejected, data⟩ s.feed } else none
  | .publish k id rejected data =>
    if id ∈ s.feed.map Cve.id then none else some { s with feed := publish k ⟨id, s.clock, rejected, data⟩ s.feed }
  | .start full =>
    match s.job with
    | some _ => none
    | none =>
      let start := if full ∨ s.db.entries = [] then none else s.watermark
      let finish := s.clock / second
      some { s with job := some ⟨start, finish, windows start finish, 0, none, []⟩ }
  | .page => s.job.bind (fun j => (nextPage server s.feed j).map (fun j => { s with job := some j }))
  | .window => s.job.bind (fun j => (nextWindow j).map (fun j => { s with job := some j }))
  | .commit now kev epss =>
    s.job.bind (fun j =>
      if j.windows = [] then
        (applyAll now kev epss j.spool s.db).map (fun db =>
          { s with db := db, watermark := some j.finish, job := none })
      else none)
  | .fail => some { s with job := none }

def begin (clock : Nat) (feed : List (Cve F)) : State F := ⟨clock, feed, .empty, none, none⟩

/-! ## What is lost and what is not -/

/-- Every CVE that NVD last modified at or before the end of the last run is stored as NVD has it. -/
def UpToDate (s : State F) : Prop :=
  ∀ finish, s.watermark = some finish → ∀ c ∈ s.feed, c.lastModified ≤ finish * second → Stored s.db c.normalize

/-- The records that a query gave before the index of the next one, while there is a next one. -/
def passed (s : State F) : List (Cve F) :=
  match s.job with
  | none => []
  | some j =>
    match j.windows with
    | some w :: _ => if j.more then (matching (some w) s.feed).take j.index else []
    | _ => []

/-- A record changes after the end of the last run and of the run in progress, and while the pages of a window
are read none changes that was on one of them. -/
def allowed (s : State F) : Action F → Bool
  | .revise id _ _ =>
    s.watermark.all (fun finish => finish * second < s.clock) && s.job.all (fun j => j.finish * second < s.clock) &&
      (passed s).all (fun c => c.id ≠ id)
  | .publish _ _ _ _ =>
    s.watermark.all (fun finish => finish * second < s.clock) && s.job.all (fun j => j.finish * second < s.clock)
  | _ => true

/-! ## Windows -/

theorem windowsFrom_le {fuel cursor finish lo hi : Nat} (h : some (lo, hi) ∈ windowsFrom fuel cursor finish) :
    hi ≤ finish := by
  induction fuel generalizing cursor with
  | zero => simp [windowsFrom] at h
  | succ fuel ih =>
    simp only [windowsFrom] at h
    split at h
    · cases List.mem_cons.mp h with
      | inl heq =>
        cases heq
        exact Nat.min_le_right _ _
      | inr hmem => exact ih hmem
    · simp at h

/-- The windows cover the time from their start to their end. -/
theorem windowsFrom_covers {fuel cursor finish : Nat} (hfuel : finish - cursor ≤ fuel) {c : Cve F}
    (hlo : cursor * second < c.lastModified) (hhi : c.lastModified ≤ finish * second) :
    ∃ w ∈ windowsFrom fuel cursor finish, w.has c = true := by
  induction fuel generalizing cursor with
  | zero =>
    unfold second at hlo hhi
    omega
  | succ fuel ih =>
    have hlt : cursor < finish := by
      unfold second at hlo hhi
      omega
    simp only [windowsFrom, hlt, if_true]
    by_cases hin : c.lastModified ≤ min (cursor + maxWindow) finish * second
    · refine ⟨_, List.mem_cons_self, ?_⟩
      simp [Window.has, hin, Nat.le_of_lt hlo]
    · have hnext : finish - min (cursor + maxWindow) finish ≤ fuel := by
        unfold maxWindow
        omega
      obtain ⟨w, hw, hhas⟩ := ih hnext (Nat.lt_of_not_le hin)
      exact ⟨w, List.mem_cons_of_mem _ hw, hhas⟩

/-! ## Changes at NVD -/

section Feed

variable {feed : List (Cve F)} {c d : Cve F} {w : Window} {n k : Nat}

@[simp] theorem normalize_id (c : Cve F) : c.normalize.id = c.id := by
  unfold Cve.normalize
  split <;> rfl

theorem normalize_modified {m : Nat} (h : c.normalize.modified = some m) : m = c.lastModified / second := by
  unfold Cve.normalize at h
  split at h
  · simp at h
  · exact (Option.some.inj h).symm

theorem eq_of_id (hids : (feed.map Cve.id).Nodup) (hc : c ∈ feed) (hd : d ∈ feed) (h : c.id = d.id) : c = d :=
  List.inj_on_of_nodup_map hids hc hd h

theorem revise_ids (c : Cve F) (feed : List (Cve F)) : (revise c feed).map Cve.id = feed.map Cve.id := by
  unfold revise
  rw [List.map_map]
  apply List.map_congr_left
  intro d _
  simp only [Function.comp]
  split
  · next h => exact h.symm
  · rfl

theorem mem_revise (h : d ∈ revise c feed) : d = c ∨ d ∈ feed ∧ d.id ≠ c.id := by
  obtain ⟨e, he, rfl⟩ := List.mem_map.mp h
  split
  · exact Or.inl rfl
  · next hne => exact Or.inr ⟨he, hne⟩

theorem revise_mem (h : d ∈ feed) : ∃ e ∈ revise c feed, e.id = d.id ∧ (e = c ∨ e = d) := by
  refine ⟨_, List.mem_map_of_mem h, ?_⟩
  split
  · next heq => exact ⟨heq.symm, Or.inl rfl⟩
  · exact ⟨rfl, Or.inr rfl⟩

/-- A record that leaves a window is taken out of its answer. -/
theorem matching_revise (hout : w.has c = false) :
    matching w (revise c feed) = (matching w feed).filter (fun d => d.id ≠ c.id) := by
  unfold matching revise
  rw [List.filter_map, List.filter_filter]
  have hkeep : ∀ d ∈ feed, (w.has ∘ fun d => if d.id = c.id then c else d) d = (decide (d.id ≠ c.id) && w.has d) := by
    intro d _
    by_cases hid : d.id = c.id
    · simp [hid, hout]
    · simp [hid]
  rw [List.filter_congr hkeep]
  calc (feed.filter (fun d => decide (d.id ≠ c.id) && w.has d)).map (fun d => if d.id = c.id then c else d)
      = (feed.filter (fun d => decide (d.id ≠ c.id) && w.has d)).map id := by
        apply List.map_congr_left
        intro d hd
        have hne := (List.mem_filter.mp hd).2
        rw [Bool.and_eq_true, decide_eq_true_eq] at hne
        simp [hne.1]
    _ = feed.filter (fun d => decide (d.id ≠ c.id) && w.has d) := List.map_id _

/-- What stands behind a position stays behind it when nothing before the position is taken out. -/
theorem mem_drop_filter {α : Type} {p : α → Bool} {l : List α} {a : α} (h : a ∈ l.drop n) (ha : p a = true)
    (hkeep : ∀ b ∈ l.take n, p b = true) : a ∈ (l.filter p).drop n := by
  have hlength : (l.take n).length = n := by
    rw [List.length_take]
    have hpos := List.length_pos_of_mem h
    rw [List.length_drop] at hpos
    omega
  have hsplit : l.filter p = l.take n ++ (l.drop n).filter p := by
    conv_lhs => rw [← List.take_append_drop n l]
    rw [List.filter_append, List.filter_eq_self.mpr hkeep]
  rw [hsplit, List.drop_append_of_le_length (Nat.le_of_eq hlength.symm), List.drop_eq_nil_of_le (Nat.le_of_eq hlength),
    List.nil_append]
  exact List.mem_filter.mpr ⟨h, ha⟩

theorem mem_publish : d ∈ publish k c feed ↔ d = c ∨ d ∈ feed := by
  unfold publish
  conv_rhs => rw [← List.take_append_drop k feed]
  simp only [List.mem_append, List.mem_cons]
  tauto

theorem publish_ids (hids : (feed.map Cve.id).Nodup) (hnew : c.id ∉ feed.map Cve.id) :
    ((publish k c feed).map Cve.id).Nodup := by
  have hperm : (publish k c feed).Perm (c :: feed) := by
    unfold publish
    refine List.perm_middle.trans ?_
    rw [List.take_append_drop]
  rw [(hperm.map Cve.id).nodup_iff, List.map_cons, List.nodup_cons]
  exact ⟨hnew, hids⟩

theorem matching_publish (hout : w.has c = false) : matching w (publish k c feed) = matching w feed := by
  unfold matching publish
  rw [List.filter_append, List.filter_cons_of_neg (by simp [hout]), ← List.filter_append, List.take_append_drop]

/-- A new record moves the others behind a position at most further. -/
theorem mem_drop_publish (h : d ∈ feed.drop n) : d ∈ (publish k c feed).drop n := by
  unfold publish
  conv at h => rw [← List.take_append_drop k feed]
  rw [List.drop_append] at h ⊢
  cases List.mem_append.mp h with
  | inl hfront => exact List.mem_append_left _ hfront
  | inr hback =>
    apply List.mem_append_right
    cases hn : n - (feed.take k).length with
    | zero =>
      rw [hn] at hback
      exact List.mem_cons_of_mem _ hback
    | succ m =>
      rw [hn] at hback
      rw [List.drop_succ_cons]
      exact (List.drop_subset_drop_left _ (Nat.le_succ m)) hback

end Feed

/-! ## Every run -/

/-- A CVE will still be asked for. -/
def Ahead (feed : List (Cve F)) (j : Job F) (c : Cve F) : Prop :=
  match j.windows with
  | [] => False
  | w :: rest => (∃ w' ∈ rest, w'.has c = true) ∨ (j.more = true ∧ c ∈ (matching w feed).drop j.index)

/-- What holds of a run in progress: it has downloaded what it has passed, as it is at NVD. -/
structure JobInv (s : State F) (j : Job F) : Prop where
  past : j.finish * second ≤ s.clock
  start : ∀ lo, j.start = some lo → s.watermark = some lo
  bounded : ∀ lo hi, some (lo, hi) ∈ j.windows → hi ≤ j.finish
  stamps : ∀ r ∈ j.spool, ∃ c ∈ s.feed, c.id = r.id ∧ ∀ m, r.modified = some m → m ≤ c.lastModified / second
  current : ∀ c ∈ s.feed, c.lastModified ≤ j.finish * second → ∀ r ∈ j.spool, r.id = c.id → r = c.normalize
  covered : ∀ c ∈ s.feed, c.lastModified ≤ j.finish * second →
    (∀ lo, j.start = some lo → lo * second < c.lastModified) → c.normalize ∈ j.spool ∨ Ahead s.feed j c

structure Inv (s : State F) : Prop where
  ids : (s.feed.map Cve.id).Nodup
  past : ∀ c ∈ s.feed, c.lastModified ≤ s.clock
  stamps : ∀ (id : CveId) (e : CveEntry F), s.db.entry id = some e →
    ∃ c ∈ s.feed, c.id = id ∧ ∀ m, e.nvd.last_modified = some m → m ≤ c.lastModified / second
  upToDate : UpToDate s
  watermark : ∀ finish, s.watermark = some finish → finish * second ≤ s.clock
  job : ∀ j, s.job = some j → JobInv s j

section Run

variable {server : Server} {s s' : State F} {j j' : Job F} {c c' : Cve F} {feed' : List (Cve F)} {w : Window}

theorem ahead_of_mem (hw : w ∈ j.windows) (hhas : w.has c = true) (hc : c ∈ s.feed) (hindex : j.index = 0)
    (htotal : j.total = none) : Ahead s.feed j c := by
  unfold Ahead
  cases hwindows : j.windows with
  | nil => simp [hwindows] at hw
  | cons w' rest =>
    rw [hwindows] at hw
    cases List.mem_cons.mp hw with
    | inl heq =>
      subst heq
      refine Or.inr ⟨by simp [Job.more, htotal], ?_⟩
      rw [hindex, List.drop_zero]
      exact List.mem_filter.mpr ⟨hc, hhas⟩
    | inr hrest => exact Or.inl ⟨w, hrest, hhas⟩

theorem Inv.tick (h : Inv s) (microseconds : Nat) : Inv { s with clock := s.clock + microseconds } := by
  constructor
  · exact h.ids
  · exact fun c hc => Nat.le_add_right_of_le (h.past c hc)
  · exact h.stamps
  · exact h.upToDate
  · exact fun finish hf => Nat.le_add_right_of_le (h.watermark finish hf)
  · intro j hj
    have hjob := h.job j hj
    exact ⟨Nat.le_add_right_of_le hjob.past, hjob.start, hjob.bounded, hjob.stamps, hjob.current, hjob.covered⟩

/-- A change at NVD after the end of the runs, which leaves ahead what was ahead. -/
theorem Inv.change (h : Inv s) (hids : (feed'.map Cve.id).Nodup)
    (hmem : ∀ c ∈ feed', c ∈ s.feed ∨ c.lastModified = s.clock)
    (hsame : ∀ c ∈ s.feed, ∃ d ∈ feed', d.id = c.id ∧ c.lastModified ≤ d.lastModified)
    (hwatermark : ∀ finish, s.watermark = some finish → finish * second < s.clock)
    (hjob : ∀ j, s.job = some j → j.finish * second < s.clock)
    (hahead : ∀ j, s.job = some j → ∀ c ∈ s.feed, c ∈ feed' → c.lastModified ≤ j.finish * second →
      Ahead s.feed j c → Ahead feed' j c) : Inv { s with feed := feed' } := by
  have hold {finish : Nat} (hlt : finish * second < s.clock) {c : Cve F} (hc : c ∈ feed')
      (hle : c.lastModified ≤ finish * second) : c ∈ s.feed := by
    refine (hmem c hc).resolve_right (fun heq => ?_)
    omega
  have hstamp {m : Nat} {c d : Cve F} (hm : m ≤ c.lastModified / second) (hle : c.lastModified ≤ d.lastModified) :
      m ≤ d.lastModified / second := Nat.le_trans hm (Nat.div_le_div_right hle)
  constructor
  · exact hids
  · intro c hc
    cases hmem c hc with
    | inl hin => exact h.past c hin
    | inr heq => exact Nat.le_of_eq heq
  · intro id e he
    obtain ⟨c, hc, hid, hm⟩ := h.stamps id e he
    obtain ⟨d, hd, hdid, hle⟩ := hsame c hc
    exact ⟨d, hd, hdid.trans hid, fun m hlast => hstamp (hm m hlast) hle⟩
  · intro finish hf c hc hle
    exact h.upToDate finish hf c (hold (hwatermark finish hf) hc hle) hle
  · exact h.watermark
  · intro j hj
    have hinv := h.job j hj
    have hlt := hjob j hj
    constructor
    · exact hinv.past
    · exact hinv.start
    · exact hinv.bounded
    · intro r hr
      obtain ⟨c, hc, hid, hm⟩ := hinv.stamps r hr
      obtain ⟨d, hd, hdid, hle⟩ := hsame c hc
      exact ⟨d, hd, hdid.trans hid, fun m hlast => hstamp (hm m hlast) hle⟩
    · intro c hc hle
      exact hinv.current c (hold hlt hc hle) hle
    · intro c hc hle hstart
      have hin := hold hlt hc hle
      exact (hinv.covered c hin hle hstart).imp_right (hahead j hj c hin hc hle)

/-- A record that changed after the end of a run is in none of its dated windows. -/
theorem not_has_of_late {dates : Nat × Nat} (hhi : dates.2 ≤ j.finish) (hlate : j.finish * second < c.lastModified) :
    Window.has (some dates) c = false := by
  have hmul : dates.2 * second ≤ j.finish * second := Nat.mul_le_mul_right second hhi
  simp only [Window.has, Bool.and_eq_false_iff, decide_eq_false_iff_not]
  omega

theorem lt_of_all {α : Type} {o : Option α} {f : α → Nat} {n : Nat} (h : o.all (fun a => decide (f a < n)) = true) {a : α}
    (ha : o = some a) : f a < n := by
  rw [ha] at h
  exact of_decide_eq_true h

theorem Inv.revise (h : Inv s) {id : CveId} {rejected : Bool} {data : Record F}
    (hok : allowed s (.revise id rejected data) = true) :
    Inv { s with feed := revise ⟨id, s.clock, rejected, data⟩ s.feed } := by
  simp only [allowed, Bool.and_eq_true, List.all_eq_true, decide_eq_true_eq] at hok
  obtain ⟨⟨hwatermark, hjob⟩, hpassed⟩ := hok
  have hlate (j : Job F) (hj : s.job = some j) : j.finish * second < s.clock := lt_of_all hjob hj
  apply h.change
  · rw [revise_ids]
    exact h.ids
  · intro c hc
    cases mem_revise hc with
    | inl heq => exact Or.inr (by rw [heq])
    | inr hin => exact Or.inl hin.1
  · intro c hc
    obtain ⟨d, hd, hid, hcase⟩ := revise_mem (c := ⟨id, s.clock, rejected, data⟩) hc
    refine ⟨d, hd, hid, ?_⟩
    cases hcase with
    | inl heq =>
      rw [heq]
      exact h.past c hc
    | inr heq => exact Nat.le_of_eq (by rw [heq])
  · exact fun finish hf => lt_of_all hwatermark hf
  · exact hlate
  · intro j hj c hc hc' hle hahead
    have hne : c.id ≠ id := by
      cases mem_revise hc' with
      | inl heq =>
        have hlt := hlate j hj
        rw [heq] at hle
        exact absurd hle (Nat.not_le.mpr hlt)
      | inr hin => exact hin.2
    unfold Ahead at hahead ⊢
    cases hwindows : j.windows with
    | nil => simp [hwindows] at hahead
    | cons w rest =>
      rw [hwindows] at hahead
      refine hahead.imp_right (fun hdrop => ⟨hdrop.1, ?_⟩)
      cases w with
      | none =>
        have hall (feed : List (Cve F)) : matching none feed = feed := List.filter_eq_self.mpr (fun _ _ => rfl)
        have hdrop := hdrop.2
        rw [hall] at hdrop ⊢
        unfold NvdUpdate.revise
        rw [← List.map_drop]
        exact List.mem_map.mpr ⟨c, hdrop, if_neg hne⟩
      | some dates =>
        have hbound := (h.job j hj).bounded dates.1 dates.2 (by rw [hwindows]; exact List.mem_cons_self)
        have hout := not_has_of_late (c := ⟨id, s.clock, rejected, data⟩) hbound (hlate j hj)
        rw [matching_revise hout]
        refine mem_drop_filter hdrop.2 (by simpa using hne) ?_
        intro d hd
        have hin : d ∈ passed s := by
          unfold passed
          simp only [hj, hwindows, hdrop.1, if_true]
          exact hd
        simpa using hpassed d hin

theorem Inv.publish (h : Inv s) {k : Nat} {id : CveId} {rejected : Bool} {data : Record F} (hnew : id ∉ s.feed.map Cve.id)
    (hok : allowed s (.publish k id rejected data) = true) :
    Inv { s with feed := publish k ⟨id, s.clock, rejected, data⟩ s.feed } := by
  simp only [allowed, Bool.and_eq_true] at hok
  obtain ⟨hwatermark, hjob⟩ := hok
  have hlate (j : Job F) (hj : s.job = some j) : j.finish * second < s.clock := lt_of_all hjob hj
  apply h.change
  · exact publish_ids h.ids hnew
  · intro c hc
    cases mem_publish.mp hc with
    | inl heq => exact Or.inr (by rw [heq])
    | inr hin => exact Or.inl hin
  · exact fun c hc => ⟨c, mem_publish.mpr (Or.inr hc), rfl, Nat.le_refl _⟩
  · exact fun finish hf => lt_of_all hwatermark hf
  · exact hlate
  · intro j hj c hc hc' hle hahead
    unfold Ahead at hahead ⊢
    cases hwindows : j.windows with
    | nil => simp [hwindows] at hahead
    | cons w rest =>
      rw [hwindows] at hahead
      refine hahead.imp_right (fun hdrop => ⟨hdrop.1, ?_⟩)
      cases w with
      | none =>
        have hall (feed : List (Cve F)) : matching none feed = feed := List.filter_eq_self.mpr (fun _ _ => rfl)
        have hdrop := hdrop.2
        rw [hall] at hdrop ⊢
        exact mem_drop_publish hdrop
      | some dates =>
        have hbound := (h.job j hj).bounded dates.1 dates.2 (by rw [hwindows]; exact List.mem_cons_self)
        have hout := not_has_of_late (c := ⟨id, s.clock, rejected, data⟩) hbound (hlate j hj)
        rw [matching_publish hout]
        exact hdrop.2

/-- A run in progress changes. -/
theorem Inv.withJob (h : Inv s) (hjob : JobInv s j) : Inv { s with job := some j } := by
  constructor
  · exact h.ids
  · exact h.past
  · exact h.stamps
  · exact h.upToDate
  · exact h.watermark
  · intro j' hj'
    cases hj'
    exact ⟨hjob.past, hjob.start, hjob.bounded, hjob.stamps, hjob.current, hjob.covered⟩

theorem JobInv.begin {start : Option Nat} {finish : Nat} (hfinish : finish * second ≤ s.clock)
    (hstart : ∀ lo, start = some lo → s.watermark = some lo) :
    JobInv s ⟨start, finish, windows start finish, 0, none, []⟩ := by
  constructor
  · exact hfinish
  · exact hstart
  · intro lo hi hmem
    cases start with
    | none => simp [windows] at hmem
    | some start => exact windowsFrom_le hmem
  · simp
  · simp
  · intro c hc hle hlo
    right
    cases start with
    | none => exact ahead_of_mem (w := none) (by simp [windows]) rfl hc rfl rfl
    | some start =>
      obtain ⟨w, hw, hhas⟩ := windowsFrom_covers (Nat.le_refl _) (hlo start rfl) hle
      exact ahead_of_mem hw hhas hc rfl rfl

theorem JobInv.page (hinv : Inv s) (h : JobInv s j) (hpage : nextPage server s.feed j = some j') : JobInv s j' := by
  unfold nextPage at hpage
  cases hwindows : j.windows with
  | nil => simp [hwindows] at hpage
  | cons w rest =>
    simp only [hwindows] at hpage
    split at hpage
    · next hmore =>
      cases hpage
      have hread {r : Record F} (hr : r ∈ (((matching w s.feed).drop j.index).take server.page).map Cve.normalize) :
          ∃ c ∈ s.feed, c.normalize = r := by
        obtain ⟨c, hc, hcr⟩ := List.mem_map.mp hr
        exact ⟨c, List.mem_of_mem_filter (List.mem_of_mem_drop (List.mem_of_mem_take hc)), hcr⟩
      constructor
      · exact h.past
      · exact h.start
      · exact fun lo hi hmem => h.bounded lo hi (by rw [hwindows]; exact hmem)
      · intro r hr
        cases List.mem_append.mp hr with
        | inl hin => exact h.stamps r hin
        | inr hnew =>
          obtain ⟨c, hc, rfl⟩ := hread hnew
          exact ⟨c, hc, (normalize_id c).symm, fun m hm => Nat.le_of_eq (normalize_modified hm)⟩
      · intro c hc hle r hr hid
        cases List.mem_append.mp hr with
        | inl hin => exact h.current c hc hle r hin hid
        | inr hnew =>
          obtain ⟨d, hd, rfl⟩ := hread hnew
          rw [normalize_id] at hid
          rw [eq_of_id hinv.ids hd hc hid]
      · intro c hc hle hlo
        cases h.covered c hc hle hlo with
        | inl hin => exact Or.inl (List.mem_append_left _ hin)
        | inr hahead =>
          unfold Ahead at hahead ⊢
          rw [hwindows] at hahead
          cases hahead with
          | inl hrest => exact Or.inr (Or.inl hrest)
          | inr hdrop =>
            have hcut := hdrop.2
            rw [← List.take_append_drop server.page ((matching w s.feed).drop j.index)] at hcut
            cases List.mem_append.mp hcut with
            | inl htake => exact Or.inl (List.mem_append_right _ (List.mem_map_of_mem htake))
            | inr hafter =>
              rw [List.drop_drop] at hafter
              have hlength := List.length_pos_of_mem hafter
              rw [List.length_drop] at hlength
              refine Or.inr (Or.inr ⟨?_, hafter⟩)
              simp only [Job.more, Option.all_some, decide_eq_true_eq]
              omega
    · simp at hpage

theorem JobInv.window (h : JobInv s j) (hnext : nextWindow j = some j') : JobInv s j' := by
  unfold nextWindow at hnext
  cases hwindows : j.windows with
  | nil => simp [hwindows] at hnext
  | cons w rest =>
    simp only [hwindows] at hnext
    split at hnext
    · simp at hnext
    · next hmore =>
      cases hnext
      constructor
      · exact h.past
      · exact h.start
      · exact fun lo hi hmem => h.bounded lo hi (by rw [hwindows]; exact List.mem_cons_of_mem _ hmem)
      · exact h.stamps
      · exact h.current
      · intro c hc hle hlo
        refine (h.covered c hc hle hlo).imp_right (fun hahead => ?_)
        unfold Ahead at hahead
        rw [hwindows] at hahead
        cases hahead with
        | inl hrest =>
          obtain ⟨w', hw', hhas⟩ := hrest
          exact ahead_of_mem hw' hhas hc rfl rfl
        | inr hdrop => exact absurd hdrop.1 hmore

/-! ### The end of a run -/

/-- The other feeds leave what came from NVD. -/
theorem applyAll_some {now : Nat → Nat} {kev : Option (List KevItem)} {epss : Option (List (CveId × F × F))}
    {records : List (Record F)} {db db' : Db F} (h : applyAll now kev epss records db = some db') :
    ∃ db₁, apply_cves now records db = some db₁ ∧
      ∀ id, (db'.entry id).map CveEntry.nvd = (db₁.entry id).map CveEntry.nvd ∧ db'.cpes id = db₁.cpes id := by
  obtain ⟨db₁, hcves, rfl⟩ := Option.map_eq_some_iff.mp h
  refine ⟨db₁, hcves, fun id => ?_⟩
  cases kev with
  | none =>
    cases epss with
    | none => exact ⟨rfl, rfl⟩
    | some rows => exact ⟨nvd_epss rows db₁ id, rfl⟩
  | some items =>
    cases epss with
    | none => exact ⟨nvd_kev (now 0) items db₁ id, rfl⟩
    | some rows => exact ⟨(nvd_epss rows _ id).trans (nvd_kev (now 0) items db₁ id), rfl⟩

theorem stored_of_same {db db' : Db F} {r : Record F}
    (hnvd : (db'.entry r.id).map CveEntry.nvd = (db.entry r.id).map CveEntry.nvd) (hcpes : db'.cpes r.id = db.cpes r.id)
    (h : Stored db r) : Stored db' r := by
  unfold Stored Absent Holds at h ⊢
  rw [hcpes, hnvd]
  split at h
  · next hrej =>
    rw [if_pos hrej]
    refine ⟨?_, h.2⟩
    rw [h.1] at hnvd
    simpa using hnvd
  · next hrej =>
    rw [if_neg hrej]
    exact h

theorem Inv.commit (h : Inv s) (hj : s.job = some j) (hwindows : j.windows = []) {now : Nat → Nat}
    {kev : Option (List KevItem)} {epss : Option (List (CveId × F × F))} {db : Db F}
    (happly : applyAll now kev epss j.spool s.db = some db) :
    Inv { s with db := db, watermark := some j.finish, job := none } := by
  have hjob := h.job j hj
  obtain ⟨db₁, hcves, hsame⟩ := applyAll_some happly
  obtain ⟨batches, hrecords, hbatches⟩ := applyFrom_batches now 0 [] j.spool
  rw [List.nil_append] at hrecords
  have hrun : batches.foldlM (fun db b => apply_cve_batch b.1 b.2 db) s.db = some db₁ := by
    rw [← hbatches]
    exact hcves
  constructor
  · exact h.ids
  · exact h.past
  · intro id e he
    have hentry : (db.entry id).map CveEntry.nvd = (db₁.entry id).map CveEntry.nvd := (hsame id).1
    rw [he] at hentry
    obtain ⟨e₁, he₁, hnvd⟩ := Option.map_eq_some_iff.mp hentry.symm
    rcases batches_stamps hrun he₁ with ⟨e₀, he₀, hlast⟩ | ⟨r, hr, hid, hlast⟩
    · obtain ⟨c, hc, hcid, hm⟩ := h.stamps id e₀ he₀
      refine ⟨c, hc, hcid, fun m hm' => hm m ?_⟩
      rw [← hlast, hnvd]
      exact hm'
    · obtain ⟨c, hc, hcid, hm⟩ := hjob.stamps r (hrecords ▸ hr)
      refine ⟨c, hc, hcid.trans hid, fun m hm' => hm m ?_⟩
      rw [← hlast, hnvd]
      exact hm'
  · intro finish hf c hc hle
    cases hf
    have hone : ∀ r ∈ batches.flatMap Prod.snd, r.id = c.normalize.id → r = c.normalize := by
      rw [hrecords, normalize_id]
      exact hjob.current c hc hle
    have hfresh : Fresh s.db c.normalize := by
      intro e he m m' hm hm'
      rw [normalize_id] at he
      obtain ⟨d, hd, hid, hstamp⟩ := h.stamps c.id e he
      rw [eq_of_id h.ids hd hc hid] at hstamp
      rw [normalize_modified hm']
      exact hstamp m hm
    obtain ⟨hmem, hother⟩ := batches_single hrun hone hfresh
    apply stored_of_same (hsame _).1 (hsame _).2
    by_cases hspool : c.normalize ∈ j.spool
    · exact hmem (hrecords.symm ▸ hspool)
    · -- it was not downloaded, so it has not changed since the run before
      obtain ⟨lo, hlo, hbefore⟩ : ∃ lo, j.start = some lo ∧ c.lastModified ≤ lo * second := by
        by_contra hnone
        cases hjob.covered c hc hle (fun lo hlo => Nat.lt_of_not_le fun hlate => hnone ⟨lo, hlo, hlate⟩) with
        | inl hin => exact hspool hin
        | inr hahead => simp [Ahead, hwindows] at hahead
      obtain ⟨hentry, hcpes⟩ := hother (hrecords.symm ▸ hspool)
      exact stored_of_same (by rw [hentry]) hcpes (h.upToDate lo (hjob.start lo hlo) c hc hbefore)
  · intro finish hf
    cases hf
    exact hjob.past
  · intro j' hj'
    cases hj'

theorem inv_step {a : Action F} (h : Inv s) (hok : allowed s a = true) (hstep : step server s a = some s') : Inv s' := by
  cases a with
  | tick microseconds =>
    cases hstep
    exact h.tick microseconds
  | revise id rejected data =>
    simp only [step] at hstep
    split at hstep
    · cases hstep
      exact h.revise hok
    · simp at hstep
  | publish k id rejected data =>
    simp only [step] at hstep
    split at hstep
    · simp at hstep
    · next hnew =>
      cases hstep
      exact h.publish hnew hok
  | start full =>
    simp only [step] at hstep
    split at hstep
    · simp at hstep
    · cases hstep
      refine h.withJob (JobInv.begin (Nat.div_mul_le_self _ _) ?_)
      intro lo hlo
      split at hlo
      · simp at hlo
      · exact hlo
  | page =>
    obtain ⟨j, hj, hnext⟩ := Option.bind_eq_some_iff.mp hstep
    obtain ⟨j', hpage, rfl⟩ := Option.map_eq_some_iff.mp hnext
    exact h.withJob ((h.job j hj).page h hpage)
  | window =>
    obtain ⟨j, hj, hnext⟩ := Option.bind_eq_some_iff.mp hstep
    obtain ⟨j', hwindow, rfl⟩ := Option.map_eq_some_iff.mp hnext
    exact h.withJob ((h.job j hj).window hwindow)
  | commit now kev epss =>
    obtain ⟨j, hj, hcommit⟩ := Option.bind_eq_some_iff.mp hstep
    split at hcommit
    · next hwindows =>
      obtain ⟨db, happly, rfl⟩ := Option.map_eq_some_iff.mp hcommit
      exact h.commit hj hwindows happly
    · simp at hcommit
  | fail =>
    cases hstep
    exact ⟨h.ids, h.past, h.stamps, h.upToDate, h.watermark, fun j hj => by cases hj⟩

end Run

/-- Whatever runs there are and however NVD changes between their requests: while no record changes that was
on a page of the window being read, everything up to the end of the last run is stored. -/
theorem update_loses_nothing (server : Server) (clock : Nat) (feed : List (Cve F)) (hids : (feed.map Cve.id).Nodup)
    (hpast : ∀ c ∈ feed, c.lastModified ≤ clock) {s : State F}
    (h : Reach (step server) (fun s a => allowed s a = true) (begin clock feed) s) : UpToDate s := by
  have hinv : Inv s := by
    apply h.invariant
    · constructor
      · exact hids
      · exact hpast
      · intro id e he
        cases he
      · intro finish hf
        cases hf
      · intro finish hf
        cases hf
      · intro j hj
        cases hj
    · intro s a s' hs hok hstep
      exact inv_step hs hok hstep
  exact hinv.upToDate

/-- A record of one product. -/
def dataOf (id : CveId) (product : Text.Str) : Record Nat :=
  ⟨id, false, none, none, none, none, ⟨none, none, none, none⟩, none, [],
    [⟨some .os, ['v'], product, none, none, none, none, none⟩]⟩

def cveOne : CveId := named '1' zero_ne_one

def cveTwo : CveId := named '2' zero_ne_two

/-- Two records at NVD, which gives one record on a page. -/
def twoCves : State Nat :=
  begin (10 * second) [⟨cveOne, 0, false, dataOf cveOne ['a']⟩, ⟨cveTwo, 0, false, dataOf cveTwo ['a']⟩]

def oneByOne : Server := ⟨1, Nat.one_pos⟩

/-- A first run, changes of both records, and the first page of the next run. -/
def untilFirstPage : List (Action Nat) :=
  [.start true, .page, .page, .window, .commit (fun _ => 0) none none, .tick (5 * second),
    .revise cveOne false (dataOf cveOne ['b']), .revise cveTwo false (dataOf cveTwo ['b']), .tick (5 * second),
    .start false, .page, .tick second]

def untilCommit : List (Action Nat) := [.page, .window, .commit (fun _ => 0) none none]

/-- The record that was not yet read changes. -/
theorem change_ahead_kept :
    ∃ s, Reach (step oneByOne) (fun s a => allowed s a = true) twoCves s ∧ s.watermark = some 20 ∧ UpToDate s := by
  have hrun : (run (fun s a => if allowed s a then step oneByOne s a else none)
      (untilFirstPage ++ .revise cveTwo false (dataOf cveTwo ['c']) :: untilCommit) twoCves).any
      (fun s => s.watermark = some 20) = true := by with_unfolding_all decide
  obtain ⟨s, hs, hwatermark⟩ := (Option.any_eq_true _ _).mp hrun
  have hreach : Reach (step oneByOne) (fun s a => allowed s a = true) twoCves s :=
    Reach.run (fun _ _ hok => hok) _ .start hs
  exact ⟨s, hreach, by simpa using hwatermark, update_loses_nothing oneByOne _ _ (by decide) (by decide) hreach⟩

/-- The record that was read changes and leaves the window, and the second page is empty. -/
theorem change_behind_loses :
    ∃ s, Reach (step oneByOne) (fun _ _ => True) twoCves s ∧ s.watermark = some 20 ∧ s.job = none ∧ ¬ UpToDate s := by
  have hrun : (run (fun s a => if true then step oneByOne s a else none)
      (untilFirstPage ++ .revise cveOne false (dataOf cveOne ['c']) :: untilCommit) twoCves).any
      (fun s => s.watermark = some 20 && s.job = none &&
        s.feed.any (fun c => c.lastModified ≤ 20 * second && !decide (Stored s.db c.normalize))) = true := by
    with_unfolding_all decide
  obtain ⟨s, hs, hall⟩ := (Option.any_eq_true _ _).mp hrun
  simp only [Bool.and_eq_true, decide_eq_true_eq, List.any_eq_true, Bool.not_eq_true', decide_eq_false_iff_not] at hall
  obtain ⟨⟨hwatermark, hjob⟩, c, hc, hle, hlost⟩ := hall
  refine ⟨s, Reach.run (fun _ _ _ => trivial) _ .start hs, hwatermark, hjob, fun h => hlost ?_⟩
  exact h 20 hwatermark c hc hle
end NvdUpdate
