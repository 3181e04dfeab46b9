import Ngcorion.Noc.Cables
import Ngcorion.Noc.Lldp

/-!
# Who may report a link lost

A found link that a sweep does not see is marked missing when a device at one of its ends
was read. Whether that device, or the table that failed, ever reported the link is not
looked at. The history of the sweeps says which device reported which cable, and by which
protocol.
-/
namespace LostLinks

open Text Transition Serial Neighbors Snmp Lldp Links Sweeps Again Cables

variable {V : Type} {lib : Lib}

/-- One sweep: what is known of the site, and how the devices that are asked answer. -/
structure Sweep (lib : Lib) (V : Type) where
  site : Site
  sameLib : site.lib = lib
  answers : Answers V
  now : Nat

/-- A cable as a device reported it. -/
structure Told where
  asset : Nat
  protocol : Protocol
  key : Key

structure History where
  db : Db
  told : List Told
  last : Option Nat

section Step

variable (reader : Reader V)

def Sweep.reports (s : Sweep lib V) : Reports := (readReports reader s.site s.answers).1

def Sweep.errors (s : Sweep lib V) : Errors := (readReports reader s.site s.answers).2

/-- The rows of the sweep. -/
def Sweep.rows (s : Sweep lib V) (db : Db) : List Row :=
  noted s.site db (s.reports reader) (s.errors reader) s.now

/-- The cables that the sweep reports. -/
def Sweep.tells (s : Sweep lib V) (db : Db) : List Told :=
  (seen s.now (s.rows reader db)).map (fun r => ⟨r.row.asset, r.row.report.protocol, r.cable s.site⟩)

def Sweep.record (s : Sweep lib V) (db : Db) : Db :=
  Links.record s.site db (s.reports reader) (s.errors reader) s.now

/-- Sweeps come one after the other. -/
def step (h : History) (s : Sweep lib V) : Option History :=
  if h.last.all (· < s.now) then some ⟨s.record reader h.db, h.told ++ s.tells reader h.db, some s.now⟩ else none

/-- No sweep yet: the links are those that were drawn by hand. -/
def begin (links : LinkTable) : History := ⟨⟨[], [], links⟩, [], none⟩

/-! ## What is expected -/

/-- The device was read, and the tables of the protocol without an error. -/
def Sweep.readBy (s : Sweep lib V) (asset : Nat) (protocol : Protocol) : Bool :=
  s.answers.any (fun d => d.1 = asset &&
    match d.2 with
    | .walks w => clean w protocol
    | .fails _ => false)

/-- A found link that the sweep marks missing was reported by a device that was read in this sweep, by a
protocol whose tables were read, and that does not report it any more. -/
def FairLoss (h : History) (s : Sweep lib V) : Prop :=
  ∀ id l l', (id, l) ∈ h.db.links.rows → l.origin ≠ .manual → l.missingSince = none →
    (id, l') ∈ (s.record reader h.db).links.rows → l'.missingSince = some s.now →
    ∃ t ∈ h.told, t.key = linkKey lib l ∧ s.readBy t.asset t.protocol = true ∧
      ∀ t' ∈ s.tells reader h.db, t'.asset = t.asset → t'.key ≠ linkKey lib l

/-- A device at an end of the link counts as read. -/
def Sweep.reaches (s : Sweep lib V) (db : Db) (l : Link) : Bool :=
  let read := readNow db (s.reports reader) (s.errors reader) s.now
  decide (l.source ∈ read) || decide (l.destination ∈ read)

/-- No link is judged on the silence of others: where a device at its end was read and no device
reports it, one that reported it before was read by the same protocol. -/
def heard (h : History) (s : Sweep lib V) : Bool :=
  keepsPorts s.site h.db (s.reports reader) (s.errors reader) s.now &&
    h.db.links.rows.all (fun e =>
      e.2.origin = .manual || e.2.missingSince.isSome || !s.reaches reader h.db e.2 ||
        (s.tells reader h.db).any (fun t => t.key = linkKey lib e.2) ||
        h.told.any (fun t => t.key = linkKey lib e.2 && s.readBy t.asset t.protocol))

end Step

/-! ## Found links and their cables -/

/-- A link that stands for a cable with ports. -/
def eligible (l : Link) : Bool := l.status ≠ .planned && !l.blank

/-- A found link is the only one with its ports. -/
def Alone (lib : Lib) (links : LinkTable) : Prop :=
  ∀ e ∈ links.rows, e.2.origin ≠ .manual → eligible e.2 = true ∧
    ∀ e' ∈ links.rows, eligible e'.2 = true → linkKey lib e'.2 = linkKey lib e.2 → e' = e

/-- Every link with ports is among the keys of the loop. -/
def Full (lib : Lib) (d : Drawing) : Prop :=
  ∀ e ∈ d.links.rows, eligible e.2 = true → (Dict.get d.byKey (linkKey lib e.2)).isSome = true

section Drawing

variable {site : Site} {now : Nat} {d : Drawing} {g : Group} {gs : List Group} {links : LinkTable}

theorem full_start (links : LinkTable) : Full site.lib (draw site now links []) := by
  intro e he helig
  simp only [eligible, Bool.and_eq_true, decide_eq_true_eq, Bool.not_eq_true'] at helig
  exact linked_iff.mpr ⟨e, he, helig.1, helig.2, rfl⟩

/-- The links of the loop stay as they were but for one that is drawn where none had the ports. -/
theorem drawGroup_links (d : Drawing) (g : Group) :
    ((drawGroup site now d g).links = d.links ∧ (drawGroup site now d g).byKey = d.byKey) ∨
    (g.suppressed = false ∧ Dict.get d.byKey (g.key site) = none ∧ site.autoLinks = true ∧
      (drawGroup site now d g).links = d.links.insert (g.first.draw site now none) ∧
      (drawGroup site now d g).byKey = (g.key site, d.links.next) :: d.byKey) := by
  rcases @drawGroup_cases site now d g with ⟨-, heq⟩ | ⟨-, id, -, heq⟩ | ⟨-, -, id, -, heq⟩ |
    ⟨hsup, hkey, -, hauto, heq⟩ | ⟨-, heq⟩
  · exact Or.inl (heq ▸ ⟨rfl, rfl⟩)
  · exact Or.inl (heq ▸ ⟨rfl, rfl⟩)
  · exact Or.inl (heq ▸ ⟨rfl, rfl⟩)
  · exact Or.inr ⟨hsup, hkey, hauto, heq ▸ rfl, heq ▸ rfl⟩
  · exact Or.inl (heq ▸ ⟨rfl, rfl⟩)

theorem drawn_eligible (r : Report) : eligible (r.draw site now none) = true := by
  simp [eligible, Report.draw, Link.blank]

theorem drawn_found (r : Report) : (r.draw site now none).origin ≠ .manual := by simp [Report.draw]

/-- The loop keeps found links alone with their ports. -/
theorem alone_drawGroup (hports : KeepsPorts site d (g :: gs)) (hfull : Full site.lib d) (halone : Alone site.lib d.links) :
    Full site.lib (drawGroup site now d g) ∧ Alone site.lib (drawGroup site now d g).links := by
  rcases @drawGroup_links site now d g with ⟨hlinks, hbyKey⟩ | ⟨hsup, hkey, hauto, hlinks, hbyKey⟩
  · unfold Full
    rw [hlinks, hbyKey]
    exact ⟨hfull, halone⟩
  · have hshort : g.first.shortCable site = g.key site := by
      simpa [hsup, hkey, hauto] using hports g List.mem_cons_self
    change linkKey site.lib (g.first.draw site now none) = g.key site at hshort
    have hother : ∀ e ∈ d.links.rows, eligible e.2 = true → linkKey site.lib e.2 ≠ g.key site := by
      intro e he helig heq
      have := hfull e he helig
      rw [heq, hkey] at this
      simp at this
    refine ⟨fun e he helig => ?_, fun e he hfound => ?_⟩
    · rw [hbyKey, Dict.get]
      rw [hlinks] at he
      rcases Table.mem_insert.mp he with he | rfl
      · rw [if_neg (Ne.symm (hother e he helig))]
        exact hfull e he helig
      · rw [if_pos hshort.symm]
        rfl
    · rw [hlinks] at he ⊢
      rcases Table.mem_insert.mp he with he | rfl
      · obtain ⟨helig, honly⟩ := halone e he hfound
        refine ⟨helig, fun e' he' helig' heq => ?_⟩
        rcases Table.mem_insert.mp he' with he' | rfl
        · exact honly e' he' helig' heq
        · exact absurd (heq.symm.trans hshort) (hother e he helig)
      · refine ⟨drawn_eligible _, fun e' he' helig' heq => ?_⟩
        rcases Table.mem_insert.mp he' with he' | rfl
        · exact absurd (heq.trans hshort) (hother e' he' helig')
        · rfl

theorem alone_fold (hports : KeepsPorts site d gs) (hfull : Full site.lib d) (halone : Alone site.lib d.links) :
    Alone site.lib (gs.foldl (drawGroup site now) d).links := by
  induction gs generalizing d with
  | nil => exact halone
  | cons g gs ih =>
    obtain ⟨hfull', halone'⟩ := @alone_drawGroup site now d g gs hports hfull halone
    exact ih hports.drawGroup hfull' halone'

/-- A key that stands for a link goes on standing for it. -/
theorem get_fold {key : Key} {id : Nat} (gs : List Group) (h : Dict.get d.byKey key = some id) :
    Dict.get (gs.foldl (drawGroup site now) d).byKey key = some id := by
  induction gs generalizing d with
  | nil => exact h
  | cons g gs ih =>
    refine ih ?_
    rcases @drawGroup_links site now d g with ⟨-, hbyKey⟩ | ⟨-, hkey, -, -, hbyKey⟩
    · rw [hbyKey]
      exact h
    · rw [hbyKey, Dict.get, if_neg]
      · exact h
      · rintro rfl
        simp [hkey] at h

/-- A cable that no report suppresses confirms the link that has its ports. -/
theorem confirmed_fold {key : Key} {id : Nat} (hget : Dict.get d.byKey key = some id) (hg : g ∈ gs)
    (hkey : g.key site = key) (hsup : g.suppressed = false) : id ∈ (gs.foldl (drawGroup site now) d).confirmed := by
  obtain ⟨before, after, rfl⟩ := List.append_of_mem hg
  rw [List.foldl_append, List.foldl_cons]
  refine (grows_fold after _).confirmed id ?_
  have hget' := @get_fold site now d key id before hget
  rw [drawGroup, if_neg (by simp [hsup]), hkey, hget']
  exact List.mem_cons_self

/-- A found link that is alone with its ports is the one that its key stands for. -/
theorem get_alone (halone : Alone site.lib links) {id : Nat} {l : Link} (hl : (id, l) ∈ links.rows)
    (hfound : l.origin ≠ .manual) : Dict.get (byKey site links) (linkKey site.lib l) = some id := by
  obtain ⟨helig, honly⟩ := halone (id, l) hl hfound
  have hsome := @full_start site 0 links (id, l) hl helig
  obtain ⟨i, hi⟩ := Option.isSome_iff_exists.mp hsome
  obtain ⟨l', hl', hstatus, hblank, hkey⟩ := mem_byKey.mp (Dict.mem_of_get _ _ _ hi)
  have hsame := honly (i, l') hl' (by simp [eligible, hstatus, hblank]) hkey
  exact (Prod.mk.inj hsame).1 ▸ hi

/-- What happens to the links after the loop keeps found ones alone with their ports. -/
theorem alone_settle {read : List Nat} (h : Alone site.lib d.links) : Alone site.lib (settle now read d) := by
  have hback : ∀ e ∈ (settle now read d).rows, ∃ l, (e.1, l) ∈ d.links.rows ∧
      e.2 = { l with lastSeen := e.2.lastSeen, missingSince := e.2.missingSince } := by
    intro e he
    obtain ⟨l, hl, htouch⟩ := of_mem_settle he
    exact ⟨l, hl, htouch ▸ touch_eq _⟩
  intro e he hfound
  obtain ⟨l, hl, heq⟩ := hback e he
  have hfields : e.2.origin = l.origin ∧ eligible e.2 = eligible l ∧ linkKey site.lib e.2 = linkKey site.lib l := by
    rw [heq]
    exact ⟨rfl, rfl, rfl⟩
  obtain ⟨helig, honly⟩ := h (e.1, l) hl (hfields.1 ▸ hfound)
  refine ⟨hfields.2.1.trans helig, fun e' he' helig' hkey => ?_⟩
  obtain ⟨l', hl', heq'⟩ := hback e' he'
  have hfields' : eligible e'.2 = eligible l' ∧ linkKey site.lib e'.2 = linkKey site.lib l' := by
    rw [heq']
    exact ⟨rfl, rfl⟩
  have hid := honly (e'.1, l') hl' (hfields'.1.symm.trans helig') (hfields'.2.symm.trans (hkey.trans hfields.2.2))
  have hrow : (e.1, e'.2) ∈ (settle now read d).rows := (Prod.mk.inj hid).1 ▸ he'
  exact Prod.ext (Prod.mk.inj hid).1 (Table.row_unique hrow he)

end Drawing

/-! ## No report is suppressed -/

section Suppressed

variable {site : Site} {db : Db} {reports : Reports} {errors : Errors} {now : Nat}

def NoneSuppressed (rows : List Row) : Prop := ∀ r ∈ rows, r.suppressed = false

theorem noneSuppressed_noted (h : NoneSuppressed db.neighbors) : NoneSuppressed (noted site db reports errors now) := by
  have hall : NoneSuppressed (noteAll site.lib now reports db.neighbors) := by
    refine List.foldlRecOn (motive := NoneSuppressed) (neighborsOf reports) (note site.lib now) h ?_
    intro rows hrows n _ r hr
    rcases mem_note.mp hr with ⟨r₀, hr₀, -, rfl⟩ | ⟨hr, -⟩ | ⟨-, rfl⟩
    · exact hrows r₀ hr₀
    · exact hrows r hr
    · rfl
  intro r hr
  obtain ⟨r₀, hr₀, rfl⟩ := mem_noted hr
  rw [rematch_eq]
  exact hall r₀ hr₀

theorem noneSuppressed_record (h : NoneSuppressed db.neighbors) :
    NoneSuppressed (record site db reports errors now).neighbors := by
  intro r hr
  obtain ⟨r₀, hr₀, -, rfl⟩ := mem_record.mp hr
  rw [settled_eq]
  exact noneSuppressed_noted h r₀ hr₀

/-- A cable that is reported while nothing is suppressed confirms its link. -/
theorem confirmed_seen (h : NoneSuppressed db.neighbors) (halone : Alone site.lib db.links) {id : Nat} {l : Link}
    (hl : (id, l) ∈ db.links.rows) (hfound : l.origin ≠ .manual) {r : Report}
    (hr : r ∈ seen now (noted site db reports errors now)) (hkey : r.cable site = linkKey site.lib l) :
    id ∈ (drawn site db reports errors now).confirmed := by
  obtain ⟨g, hg, hgkey⟩ := @group_of_report site _ _ hr
  have hsup : g.suppressed = false := by
    refine List.any_eq_false.mpr fun m hm => ?_
    rw [(mem_groups hg).2] at hm
    simp [Report.suppressed, noneSuppressed_noted h m.row (mem_seen.mp (List.mem_filter.mp hm).1).1]
  exact confirmed_fold (get_alone halone hl hfound) hg (hgkey.trans hkey) hsup

end Suppressed

/-! ## Runs -/

/-- The sweeps so far suppressed no report and left every found link alone with its ports. -/
structure Inv (lib : Lib) (h : History) : Prop where
  suppressed : NoneSuppressed h.db.neighbors
  alone : Alone lib h.db.links

section Runs

variable {reader : Reader V} {h h' : History} {s : Sweep lib V}

theorem inv_begin {links : LinkTable} (hmanual : ∀ e ∈ links.rows, e.2.origin = .manual) : Inv lib (begin links) where
  suppressed := by simp [NoneSuppressed, begin]
  alone e he hfound := absurd (hmanual e he) hfound

theorem inv_step (hinv : Inv lib h) (hheard : heard reader h s = true) (hstep : step reader h s = some h') :
    Inv lib h' := by
  obtain ⟨site, rfl, answers, now⟩ := s
  unfold step at hstep
  split at hstep
  · obtain rfl := Option.some.inj hstep
    have hports := keepsPorts_start (Bool.and_eq_true _ _ ▸ hheard).1
    refine ⟨noneSuppressed_record hinv.suppressed, alone_settle ?_⟩
    exact alone_fold hports (@full_start site now h.db.links) hinv.alone
  · simp at hstep

/-- What a sweep marks missing was not seen in it, and a device at an end was read. -/
theorem missing_cases {id : Nat} {l l' : Link} (hl : (id, l) ∈ h.db.links.rows) (hnone : l.missingSince = none)
    (hl' : (id, l') ∈ (s.record reader h.db).links.rows) (hmissing : l'.missingSince = some s.now) :
    id ∉ (drawn s.site h.db (s.reports reader) (s.errors reader) s.now).confirmed ∧ s.reaches reader h.db l = true := by
  have hsound := @sound_draw s.site s.now h.db.links
    (groups s.site (seen s.now (noted s.site h.db (s.reports reader) (s.errors reader) s.now)))
  obtain ⟨l₀, hl₀, htouch⟩ := of_mem_settle hl'
  have hsame : l₀ = l := Table.row_unique hl₀ (hsound.old _ hl)
  subst hsame
  change touch _ _ _ id l₀ = l' at htouch
  rw [← htouch] at hmissing
  unfold touch at hmissing
  split at hmissing
  · simp at hmissing
  · rename_i hunseen
    refine ⟨hunseen, ?_⟩
    split at hmissing
    · rename_i hends
      simp only [Bool.and_eq_true, decide_eq_true_eq] at hends
      exact hends.1.2
    · simp [hnone] at hmissing

/-- A sweep in which no link is judged on the silence of others marks links missing fairly. -/
theorem fair_step (hinv : Inv lib h) (hheard : heard reader h s = true) : FairLoss reader h s := by
  intro id l l' hl hfound hnone hl' hmissing
  obtain ⟨hunseen, hreaches⟩ := missing_cases hl hnone hl' hmissing
  have hunsaid : ∀ t ∈ s.tells reader h.db, t.key ≠ linkKey lib l := by
    obtain ⟨site, rfl, answers, now⟩ := s
    intro t ht hkey
    obtain ⟨r, hr, rfl⟩ := List.mem_map.mp ht
    exact hunseen (confirmed_seen hinv.suppressed hinv.alone hl hfound hr hkey)
  have hall := List.all_eq_true.mp (Bool.and_eq_true _ _ ▸ hheard).2 (id, l) hl
  have hquiet : (s.tells reader h.db).any (fun t => t.key = linkKey lib l) = false :=
    List.any_eq_false.mpr fun t ht => by simpa using hunsaid t ht
  simp only [hfound, hnone, hreaches, hquiet, decide_false, Option.isSome_none, Bool.not_true, Bool.or_self,
    Bool.false_or] at hall
  obtain ⟨t, ht, htold⟩ := List.any_eq_true.mp hall
  simp only [Bool.and_eq_true, decide_eq_true_eq] at htold
  exact ⟨t, ht, htold.1, htold.2, fun t' ht' _ => hunsaid t' ht'⟩

theorem inv_reach {links : LinkTable} (hmanual : ∀ e ∈ links.rows, e.2.origin = .manual)
    (h : Reach (step reader) (fun h (s : Sweep lib V) => heard reader h s = true) (begin links) h') : Inv lib h' :=
  h.invariant (inv_begin hmanual) (fun _ _ _ hinv hheard hstep => inv_step hinv hheard hstep)

/-- In a run of sweeps that never judge a link on the silence of others, every loss is reported by a
device that had reported the link. -/
theorem lost_by_reporter (reader : Reader V) {links : LinkTable} (hmanual : ∀ e ∈ links.rows, e.2.origin = .manual)
    (hreach : Reach (step reader) (fun h (s : Sweep lib V) => heard reader h s = true) (begin links) h) (hheard : heard reader h s = true) :
    FairLoss reader h s :=
  fair_step (inv_reach hmanual hreach) hheard

end Runs

/-! ## Two switches -/

/-- Values that are numbers or texts. -/
inductive Value where
  | int (n : Int)
  | text (s : Str)

def valueReader : Reader Value where
  asInt
    | .int n => some n
    | .text _ => none
  text
    | .int n => some (toString n).toList
    | .text s => given (some s)
  ipv4 _ := none
  normalizeMac
    | .int _ => none
    | .text s => normalizeMac twoSwitches.lib (some s)
  networkAddress _ := none

/-- The tables of the first switch that has the second one at its port 24. -/
def coreWalks : Walks Value where
  localSystem := .ok [(lldpLocPort ++ [2, 24], .int 5), (lldpLocPort ++ [3, 24], .text (lit "Gi1/0/24"))]
  remote := .ok [(lldpRem ++ [4, 0, 24, 1], .int 4), (lldpRem ++ [5, 0, 24, 1], .text (lit "00:19:e7:00:00:02")),
    (lldpRem ++ [6, 0, 24, 1], .int 5), (lldpRem ++ [7, 0, 24, 1], .text (lit "GigabitEthernet1/0/1")),
    (lldpRem ++ [9, 0, 24, 1], .text (lit "dist-sw-02"))]
  management := .ok []
  cdp := .error (lit "NoSuchOID")

/-- The walk of its neighbours times out, and a telephone answers the other protocol. -/
def halfWalks : Walks Value where
  localSystem := coreWalks.localSystem
  remote := .error (lit "TimeoutError")
  management := .ok []
  cdp := .ok [(cdpCache ++ [6, 7, 1], .text (lit "SEP0019E7"))]

/-- A switch that names its ports and has no neighbours. -/
def noNeighbors : Walks Value where
  localSystem := coreWalks.localSystem
  remote := .ok []
  management := .ok []
  cdp := .error (lit "NoSuchOID")

def sweepOf (answers : Answers Value) (now : Nat) : Sweep twoSwitches.lib Value := ⟨twoSwitches, rfl, answers, now⟩

def coreSweep : Sweep twoSwitches.lib Value := sweepOf [(1, .walks coreWalks)] 1

def noLinks : LinkTable := noHistory.db.links

/-- The first sweep has drawn the link. -/
def afterCore : History :=
  ⟨coreSweep.record valueReader (begin noLinks).db, coreSweep.tells valueReader (begin noLinks).db, some 1⟩

theorem step_core : step valueReader (begin noLinks) coreSweep = some afterCore := by
  rw [step, if_pos (by simp [begin])]
  simp [begin, afterCore, coreSweep, sweepOf]

/-- A link is marked missing that none of the devices read had reported. -/
def unfair (reader : Reader Value) (h : History) (s : Sweep lib Value) : Bool :=
  h.db.links.rows.any (fun e => e.2.origin ≠ .manual && e.2.missingSince.isNone &&
    (s.record reader h.db).links.rows.any (fun e' => e'.1 = e.1 && e'.2.missingSince = some s.now) &&
    !h.told.any (fun t => t.key = linkKey lib e.2 && s.readBy t.asset t.protocol))

theorem not_fair {reader : Reader Value} {h : History} {s : Sweep lib Value} (hunfair : unfair reader h s = true) :
    ¬ FairLoss reader h s := by
  intro hfair
  obtain ⟨⟨id, l⟩, hl, hcase⟩ := List.any_eq_true.mp hunfair
  simp only [Bool.and_eq_true, decide_eq_true_eq, Bool.not_eq_true', Option.isNone_iff_eq_none] at hcase
  obtain ⟨⟨⟨hfound, hnone⟩, hlost⟩, hnobody⟩ := hcase
  obtain ⟨⟨id', l'⟩, hl', hmissing⟩ := List.any_eq_true.mp hlost
  simp only [Bool.and_eq_true, decide_eq_true_eq] at hmissing
  obtain ⟨rfl, hmissing⟩ := hmissing
  obtain ⟨t, ht, hkey, hread, -⟩ := hfair id' l l' hl hfound hnone hl' hmissing
  have := List.any_eq_false.mp hnobody t ht
  simp [hkey, hread] at this

/-- The link is marked missing when the walk of the switch's neighbours times out while its other protocol
answers, and when only the other switch is read, which never reported it. -/
theorem lost_in_silence :
    Transition.run (step valueReader) [coreSweep] (begin noLinks) = some afterCore ∧
      ¬ FairLoss valueReader afterCore (sweepOf [(1, .walks halfWalks)] 2) ∧
      ¬ FairLoss valueReader afterCore (sweepOf [(2, .walks noNeighbors)] 2) :=
  ⟨by rw [Transition.run, step_core]; rfl, not_fair (by with_unfolding_all decide),
    not_fair (by with_unfolding_all decide)⟩

theorem heard_core : heard valueReader (begin noLinks) coreSweep = true := by with_unfolding_all decide

theorem reach_afterCore :
    Reach (step valueReader) (fun h (s : Sweep twoSwitches.lib Value) => heard valueReader h s = true)
      (begin noLinks) afterCore :=
  .step .start heard_core step_core

/-- The switch is read again and has no neighbour any more: its link is marked missing, and fairly so. -/
theorem lost_when_gone :
    (∃ l, (1, l) ∈ ((sweepOf [(1, .walks noNeighbors)] 2).record valueReader afterCore.db).links.rows ∧
      l.missingSince = some 2) ∧ FairLoss valueReader afterCore (sweepOf [(1, .walks noNeighbors)] 2) := by
  refine ⟨?_, lost_by_reporter valueReader (by simp [noLinks, noHistory]) reach_afterCore (by with_unfolding_all decide)⟩
  have hlost : (((sweepOf [(1, .walks noNeighbors)] 2).record valueReader afterCore.db).links.rows.any
      (fun e => e.1 = 1 && e.2.missingSince = some 2)) = true := by with_unfolding_all decide
  obtain ⟨⟨id, l⟩, hl, hcase⟩ := List.any_eq_true.mp hlost
  simp only [Bool.and_eq_true, decide_eq_true_eq] at hcase
  obtain ⟨rfl, hmissing⟩ := hcase
  exact ⟨l, hl, hmissing⟩

end LostLinks
