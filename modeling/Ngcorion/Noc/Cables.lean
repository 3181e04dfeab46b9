import Ngcorion.Noc.Again

/-!
# One cable is one link

The topology discovery over whole runs of sweeps, removals of found links and links
added to the map by hand.
-/
namespace Cables

open Text Serial Transition Neighbors Links Sweeps Again

variable (site : Site)

/-! ## Runs -/

/-- The tables, and the cables of the found links that were removed and not brought back since. -/
structure History where
  db : Db
  removed : List Key

/-- The link runs between the two devices. -/
def within (a b : Nat) (k : Key) : Bool := k.devices = s(a, b) || k.devices = s(a, a) || k.devices = s(b, b)

def step (h : History) : Action → Option History
  | .sweep reports errors now => some { h with db := record site h.db reports errors now }
  | .remove id =>
    match h.db.links.rows.find? (fun e => e.1 = id) with
    | some e => if e.2.origin = .manual then none else some ⟨removeLink h.db id, linkKey site.lib e.2 :: h.removed⟩
    | none => none
  | .addToMap asset ident user =>
    match (h.db.neighbors.find? (Row.is asset ident)).bind reportOf with
    | some r => some ⟨linkFromNeighbor site h.db r user, h.removed.filter (fun k => !within r.row.asset r.other k)⟩
    | none => none

/-! ## The steps that the discovery is ready for -/

/-- A link that the sweep would draw has the ports of its cable, although their names are shortened. -/
def keepsPorts (db : Db) (reports : Reports) (errors : Errors) (now : Nat) : Bool :=
  (groups site (seen now (noted site db reports errors now))).all (fun g =>
    g.suppressed || linked site db.links (g.key site) || !site.autoLinks || g.first.shortCable site = g.key site)

/-- The suppressed report is not forgotten, and is one of this sweep if the sweep has the cable. -/
def marks (now : Nat) (rows : List Row) (key : Key) (r : Row) : Bool :=
  r.suppressed && cable site r = some key &&
    if (seen now rows).any (fun r' => r'.cable site = key) then r.lastSeen = now
    else !(r.lastSeen + forgetAfter < now)

/-- Every cable with a suppressed report still has one. -/
def keepsMarks (db : Db) (reports : Reports) (errors : Errors) (now : Nat) : Bool :=
  db.neighbors.all (fun r => !r.suppressed || (cable site r).all (fun key =>
    (noted site db reports errors now).any (marks site now (noted site db reports errors now) key)))

/-- A report of the cable refers to the link. -/
def reported (db : Db) (id : Nat) (l : Link) : Bool :=
  db.neighbors.any (fun r => r.link = some id && cable site r = some (linkKey site.lib l))

def meets (db : Db) : Action → Bool
  | .sweep reports errors now => db.neighbors.all (fun r => r.lastSeen ≠ now) &&
      keepsPorts site db reports errors now && keepsMarks site db reports errors now
  | .remove id => db.links.rows.all (fun e => e.1 ≠ id || reported site db id e.2)
  | .addToMap _ _ _ => true

/-! ## The law -/

/-- What holds of every sweep from a state. -/
structure Lawful (h : History) : Prop where
  /-- The reports of a cable refer to one link or to none. -/
  oneLink : ∀ reports errors now key, ∃ id : Option Nat,
    (∀ r ∈ (record site h.db reports errors now).neighbors, r.lastSeen = now → cable site r = some key → r.link = id) ∧
      ∀ i, id = some i → ∃ l, (i, l) ∈ (record site h.db reports errors now).links.rows
  /-- A hand-drawn link is the same, apart from when it was seen. -/
  manual : ∀ reports errors now, ∀ e ∈ h.db.links.rows, e.2.origin = .manual →
    ∃ l, (e.1, l) ∈ (record site h.db reports errors now).links.rows ∧
      l = { e.2 with lastSeen := l.lastSeen, missingSince := l.missingSince }
  /-- Recording the same reports again creates no link. -/
  again : ∀ reports errors now errors' now', meets site h.db (.sweep reports errors now) = true →
    meets site (record site h.db reports errors now) (.sweep reports errors' now') = true →
    ∀ e ∈ (record site (record site h.db reports errors now) reports errors' now').links.rows,
      e.1 < (record site h.db reports errors now).links.next
  /-- A removed link is not created again. -/
  removed : ∀ reports errors now, meets site h.db (.sweep reports errors now) = true → ∀ k ∈ h.removed,
    ∀ e ∈ (record site h.db reports errors now).links.rows, h.db.links.next ≤ e.1 → linkKey site.lib e.2 ≠ k

section Sweep

variable {site} {db : Db} {reports : Reports} {errors errors' : Errors} {now now' : Nat} {key : Key}

/-- The cable has a suppressed report. -/
def Marked (site : Site) (rows : List Row) (key : Key) : Prop :=
  ∃ r ∈ rows, r.suppressed = true ∧ cable site r = some key

theorem marks_of_marked (h : keepsMarks site db reports errors now = true) (hmarked : Marked site db.neighbors key) :
    ∃ r ∈ noted site db reports errors now, marks site now (noted site db reports errors now) key r = true := by
  obtain ⟨r, hr, hsup, hcable⟩ := hmarked
  have hall := List.all_eq_true.mp h r hr
  simpa [hsup, hcable] using hall

/-- A sweep that has a marked cable has a suppressed report of it. -/
theorem suppressed_of_marked (h : keepsMarks site db reports errors now = true) (hmarked : Marked site db.neighbors key)
    {g : Group} (hg : g ∈ groups site (seen now (noted site db reports errors now))) (hkey : g.key site = key) :
    g.suppressed = true := by
  obtain ⟨hfirst, hmembers⟩ := mem_groups hg
  obtain ⟨r, hr, hmarks⟩ := marks_of_marked h hmarked
  have hany : (seen now (noted site db reports errors now)).any (fun r' => r'.cable site = key) = true :=
    List.any_eq_true.mpr ⟨g.first, hfirst, by simpa [Group.key] using hkey⟩
  simp only [marks, hany, if_true, Bool.and_eq_true, decide_eq_true_eq] at hmarks
  obtain ⟨⟨hsup, hcable⟩, hnow⟩ := hmarks
  obtain ⟨report, hreport, hreportKey⟩ := Option.map_eq_some_iff.mp hcable
  obtain ⟨other, hother, rfl⟩ := Option.map_eq_some_iff.mp hreport
  refine List.any_eq_true.mpr ⟨⟨r, other⟩, ?_, hsup⟩
  rw [hmembers, List.mem_filter]
  exact ⟨mem_seen.mpr ⟨hr, hnow, hother⟩, by simp [hreportKey, hkey]⟩

/-- A marked cable is marked also after a sweep. -/
theorem marked_record (h : keepsMarks site db reports errors now = true) (hmarked : Marked site db.neighbors key) :
    Marked site (record site db reports errors now).neighbors key := by
  obtain ⟨r, hr, hmarks⟩ := marks_of_marked h hmarked
  simp only [marks, Bool.and_eq_true, decide_eq_true_eq] at hmarks
  obtain ⟨⟨hsup, hcable⟩, hkept⟩ := hmarks
  refine ⟨settled site db reports errors now r, mem_record.mpr ⟨r, hr, ?_, rfl⟩, ?_, ?_⟩
  · split at hkept
    · simp only [decide_eq_true_eq] at hkept
      omega
    · simpa using hkept
  · rw [settled_eq]
    exact hsup
  · rw [cable_settled]
    exact hcable

theorem keepsPorts_start (h : keepsPorts site db reports errors now = true) :
    KeepsPorts site (draw site now db.links []) (groups site (seen now (noted site db reports errors now))) := by
  intro g hg
  have hall := List.all_eq_true.mp h g hg
  simp only [Bool.or_eq_true, Bool.not_eq_true', decide_eq_true_eq] at hall
  rcases hall with ((hsup | hlinked) | hauto) | hshort
  · exact Or.inl hsup
  · exact Or.inr (Or.inl hlinked)
  · exact Or.inr (Or.inr (Or.inl hauto))
  · exact Or.inr (Or.inr (Or.inr hshort))

theorem linkKey_touch (read confirmed : List Nat) (id : Nat) (l : Link) :
    linkKey site.lib (touch now read confirmed id l) = linkKey site.lib l := by
  rw [touch_eq]
  rfl

/-- A sweep draws no link for a marked cable. -/
theorem record_marked (hports : keepsPorts site db reports errors now = true)
    (hmarks : keepsMarks site db reports errors now = true) (hmarked : Marked site db.neighbors key) {e : Nat × Link}
    (he : e ∈ (record site db reports errors now).links.rows) (hnew : db.links.next ≤ e.1) :
    linkKey site.lib e.2 ≠ key := by
  intro hkey
  obtain ⟨l, hl, htouch⟩ := of_mem_settle he
  obtain ⟨g, hg, hsup, hlink⟩ := newLinks_draw (keepsPorts_start hports) _ hl hnew
  rw [← htouch, linkKey_touch] at hkey
  have hmarked' := suppressed_of_marked hmarks hmarked hg (hlink.symm.trans hkey)
  simp [hsup] at hmarked'

/-- Without automatic links nothing is drawn. -/
theorem draw_links_off (hauto : site.autoLinks = false) (links : LinkTable) (gs : List Group) :
    (draw site now links gs).links = links := by
  refine List.foldlRecOn (motive := fun d : Drawing => d.links = links) gs _ rfl ?_
  intro d hd g _
  rcases @drawGroup_cases site now d g with ⟨-, heq⟩ | ⟨-, id, -, heq⟩ | ⟨-, -, id, -, heq⟩ | ⟨-, -, -, hon, -⟩ | ⟨-, heq⟩
  · rw [heq]
    exact hd
  · rw [heq]
    exact hd
  · rw [heq]
    exact hd
  · simp [hauto] at hon
  · rw [heq]
    exact hd

/-- A cable that the second sweep does not suppress was not suppressed in the first one. -/
theorem group_again (hfresh : ∀ r ∈ (record site db reports errors now).neighbors, r.lastSeen ≠ now')
    (hmarks : keepsMarks site (record site db reports errors now) reports errors' now' = true) {g : Group}
    (hg : g ∈ groups site (seen now' (noted site (record site db reports errors now) reports errors' now')))
    (hsup : g.suppressed = false) :
    ∃ g₁ ∈ groups site (seen now (noted site db reports errors now)),
      g₁.key site = g.key site ∧ g₁.suppressed = false := by
  obtain ⟨r₁, hr₁, hcable⟩ := seen_again hfresh (mem_groups hg).1
  obtain ⟨g₁, hg₁, hkey₁⟩ := @group_of_report site _ _ hr₁
  refine ⟨g₁, hg₁, hkey₁.trans hcable, ?_⟩
  by_contra hnot
  obtain ⟨r, hr, hrsup⟩ := List.any_eq_true.mp (by simpa using hnot : g₁.suppressed = true)
  rw [(mem_groups hg₁).2, List.mem_filter] at hr
  obtain ⟨hseen, hrkey⟩ := hr
  obtain ⟨hrow, hnow, hother⟩ := mem_seen.mp hseen
  have hmarked : Marked site (record site db reports errors now).neighbors (g.key site) := by
    refine ⟨settled site db reports errors now r.row, mem_record.mpr ⟨r.row, hrow, by omega, rfl⟩, ?_, ?_⟩
    · rw [settled_eq]
      exact hrsup
    · rw [cable_settled, cable_report hother]
      simp only [decide_eq_true_eq] at hrkey
      rw [hrkey, hkey₁, hcable]
      rfl
  simp [suppressed_of_marked hmarks hmarked hg rfl] at hsup

/-- Recording the same again: every cable has its link already, or a hand-drawn one for it. -/
theorem drawn_again (hfresh : ∀ r ∈ (record site db reports errors now).neighbors, r.lastSeen ≠ now')
    (hports : keepsPorts site db reports errors now = true)
    (hmarks : keepsMarks site (record site db reports errors now) reports errors' now' = true) :
    (drawn site (record site db reports errors now) reports errors' now').links =
      (record site db reports errors now).links := by
  cases hauto : site.autoLinks with
  | false => exact draw_links_off hauto _ _
  | true =>
    refine fold_links _ _ (fun p => ?_)
    have hfirst := @fold_blank site now (readNow db reports errors now) hauto _ _ (valid_start db.links)
      (keepsPorts_start hports) p
    have hblank := @countP_settle now db.links _ (readNow db reports errors now)
      (@sound_draw site now db.links (groups site (seen now (noted site db reports errors now)))) p
    refine Nat.le_trans ?_ (Nat.le_trans (Nat.le_trans (Nat.le_add_right _ _) hfirst) hblank)
    refine @countP_le_countP _ _ _ (Group.key site) (Group.key site) _ _ _ _ (nodup_groups _) ?_
    intro g hg hneedy
    simp only [needy, Bool.and_eq_true, Bool.not_eq_true', decide_eq_true_eq] at hneedy
    obtain ⟨⟨hsup, hnone⟩, hpair⟩ := hneedy
    obtain ⟨g₁, hg₁, hkey, hsup₁⟩ := group_again hfresh hmarks hg hsup
    have hunlinked : linked site (record site db reports errors now).links (g.key site) = false := by
      simpa [linked] using hnone
    refine ⟨g₁, hg₁, ?_, hkey⟩
    have hpair₁ : g₁.pair = p := by
      rw [← devices_key, hkey, devices_key]
      exact hpair
    simp only [Bool.and_eq_true, Bool.not_eq_true', decide_eq_true_eq]
    exact ⟨⟨hsup₁, by rw [hkey]; exact hunlinked⟩, hpair₁⟩

end Sweep

/-! ## Runs that meet the conditions -/

section Run

variable {site} {h h' : History}

/-- Every removed cable is marked. -/
def Inv (site : Site) (h : History) : Prop := ∀ k ∈ h.removed, Marked site h.db.neighbors k

theorem cable_mark (r : Row) (suppressed : Bool) (link : Option Nat) :
    cable site { r with suppressed := suppressed, link := link } = cable site r := by
  cases hm : r.matched with
  | none => simp [cable, reportOf, hm]
  | some other => simp [cable, reportOf, hm, Report.cable, Report.ends]

theorem inv_remove {id : Nat} {e : Nat × Link} (hinv : Inv site h) (he : e ∈ h.db.links.rows) (hid : e.1 = id)
    (hmeets : meets site h.db (.remove id) = true) :
    Inv site ⟨removeLink h.db id, linkKey site.lib e.2 :: h.removed⟩ := by
  -- the reports that refer to the link are marked; the others stay as they are
  have hkept : ∀ r ∈ h.db.neighbors, ∀ k, cable site r = some k → r.suppressed = true ∨ r.link = some id →
      Marked site (removeLink h.db id).neighbors k := by
    intro r hr k hcable hmark
    refine ⟨_, List.mem_map_of_mem hr, ?_, ?_⟩
    · split
      · rfl
      · rename_i hlink
        exact hmark.resolve_right hlink
    · split
      · rw [cable_mark]
        exact hcable
      · exact hcable
  intro k hk
  rcases List.mem_cons.mp hk with rfl | hk
  · have hrep := List.all_eq_true.mp hmeets e he
    simp only [hid, ne_eq, not_true_eq_false, decide_false, Bool.false_or] at hrep
    obtain ⟨r, hr, hlink⟩ := List.any_eq_true.mp hrep
    simp only [Bool.and_eq_true, decide_eq_true_eq] at hlink
    exact hkept r hr _ hlink.2 (Or.inr hlink.1)
  · obtain ⟨r, hr, hsup, hcable⟩ := hinv k hk
    exact hkept r hr k hcable (Or.inl hsup)

/-- A report between the two devices is one of a cable between them. -/
theorem within_of_between {a b : Nat} {r : Row} {k : Key} (hcable : cable site r = some k)
    (hbetween : between a b r = true) : within a b k = true := by
  obtain ⟨report, hreport, rfl⟩ := Option.map_eq_some_iff.mp hcable
  obtain ⟨other, hother, rfl⟩ := Option.map_eq_some_iff.mp hreport
  have hdevices : Key.devices (Report.cable site ⟨r, other⟩) = s(r.asset, other) := rfl
  simp only [between, hother, Option.any_some, Bool.and_eq_true, Bool.or_eq_true, decide_eq_true_eq] at hbetween
  obtain ⟨hasset, hother'⟩ := hbetween
  simp only [within, hdevices, Bool.or_eq_true, decide_eq_true_eq]
  rcases hasset with ha | ha <;> rcases hother' with ho | ho <;> simp [ha, ho, Sym2.eq_swap]

theorem inv_addToMap {r : Report} (user : Option Nat) (hinv : Inv site h) (hother : r.row.matched = some r.other) :
    Inv site ⟨linkFromNeighbor site h.db r user, h.removed.filter (fun k => !within r.row.asset r.other k)⟩ := by
  intro k hk
  obtain ⟨hk, hout⟩ := List.mem_filter.mp hk
  obtain ⟨m, hm, hsup, hcable⟩ := hinv k hk
  have hbetween : between r.row.asset r.other m = false := by
    by_contra hb
    have hin := within_of_between hcable (by simpa using hb)
    simp [hin] at hout
  have hne : m ≠ r.row := by
    rintro rfl
    simp [between, hother] at hbetween
  refine ⟨m, List.mem_map.mpr ⟨m, hm, ?_⟩, hsup, hcable⟩
  rw [if_neg hne, if_neg (by simp [hbetween])]

theorem inv_step {a : Action} (hinv : Inv site h) (hmeets : meets site h.db a = true) (hstep : step site h a = some h') :
    Inv site h' := by
  cases a with
  | sweep reports errors now =>
    simp only [step, Option.some.injEq] at hstep
    subst hstep
    simp only [meets, Bool.and_eq_true] at hmeets
    intro k hk
    exact marked_record hmeets.2 (hinv k hk)
  | remove id =>
    simp only [step] at hstep
    split at hstep
    · rename_i e hfind
      split at hstep
      · simp at hstep
      · simp only [Option.some.injEq] at hstep
        subst hstep
        exact inv_remove hinv (List.mem_of_find?_eq_some hfind) (by simpa using List.find?_some hfind) hmeets
    · simp at hstep
  | addToMap asset ident user =>
    simp only [step] at hstep
    split at hstep
    · rename_i r hr
      simp only [Option.some.injEq] at hstep
      subst hstep
      obtain ⟨row, -, hrow⟩ := Option.bind_eq_some_iff.mp hr
      obtain ⟨other, hother, rfl⟩ := Option.map_eq_some_iff.mp hrow
      exact inv_addToMap user hinv hother
    · simp at hstep

end Run

/-- In a run whose steps meet the conditions, one cable is one link and a removed link is
not drawn again. -/
theorem reach_lawful {start h : History} (hstart : start.removed = [])
    (hreach : Reach (step site) (fun h a => meets site h.db a = true) start h) : Lawful site h := by
  have hinv : Inv site h := by
    apply hreach.invariant
    · intro k hk
      simp [hstart] at hk
    · intro s a s' hs hok htaken
      exact inv_step hs hok htaken
  refine ⟨fun _ _ _ key => record_oneLink key, fun _ _ _ e he hmanual => record_manual he hmanual, ?_, ?_⟩
  · intro reports errors now errors' now' hmeets hmeets' e he
    simp only [meets, Bool.and_eq_true] at hmeets hmeets'
    have hfresh : ∀ r ∈ (record site h.db reports errors now).neighbors, r.lastSeen ≠ now' := by
      simpa using hmeets'.1.1
    obtain ⟨l, hl, -⟩ := of_mem_settle he
    rw [drawn_again hfresh hmeets.1.2 hmeets'.2] at hl
    exact Table.fresh _ (e.1, l) hl
  · intro reports errors now hmeets k hk e he hnew
    simp only [meets, Bool.and_eq_true] at hmeets
    exact record_marked hmeets.1.2 hmeets.2 (hinv k hk) he hnew

/-! ## Two switches -/

def longPort : Str := List.replicate 101 'p'

/-- Two switches without a list of interfaces. The digests are those of the reports below. -/
def twoSwitches : Site where
  lib :=
    { lower := List.map Char.toLower
      isdigit := Char.isDigit
      sha1 := fun s =>
        if s = lit "lldp|Gi1/0/24|00:19:e7:00:00:02|GigabitEthernet1/0/1" then lit "a7f8d8d60da68f38b23bf1e079514fc2a10d74c9"
        else if s = lit "lldp|Gi1/0/1|00:19:e7:00:00:01|Gi1/0/24" then lit "e737adc2cd1d7dc70bf8be82817ffb2afd07db76"
        else lit "b0e61026523e4d8794414f234f7bd259f5d8742d" }
  assets := [⟨1, none, none, some (lit "core-sw-01"), none⟩, ⟨2, none, none, some (lit "dist-sw-02"), none⟩]
  sysNames := []
  endpoints := []
  interfaces := []
  autoLinks := true

def coreReport (port : Str) : NeighborReport :=
  ⟨[⟨.lldp, lit "Gi1/0/24", none, some (lit "00:19:e7:00:00:02"), .mac, some port, none, some (lit "dist-sw-02"), none⟩],
    some (lit "00:19:e7:00:00:01"), true, false⟩

def distReport : NeighborReport :=
  ⟨[⟨.lldp, lit "Gi1/0/1", none, some (lit "00:19:e7:00:00:01"), .mac, some (lit "Gi1/0/24"), none,
    some (lit "core-sw-01"), none⟩], some (lit "00:19:e7:00:00:02"), true, false⟩

def bothReports : Reports := [(1, coreReport (lit "GigabitEthernet1/0/1")), (2, distReport)]

def noHistory : History := ⟨⟨[], [], ⟨[], 1, by simp, by simp⟩⟩, []⟩

/-- Both switches report the cable, its link is removed, and both report it again. -/
theorem reach_lawful_both : ∃ h, h.removed.length = 1 ∧ h.db.links.rows = [] ∧ Lawful twoSwitches h := by
  have hrun : (run (fun h a => if meets twoSwitches h.db a then step twoSwitches h a else none)
      [.sweep bothReports [] 1, .remove 1, .sweep bothReports [] 2] noHistory).any
        (fun h => decide (h.removed.length = 1) && h.db.links.rows.isEmpty) = true := by with_unfolding_all decide
  obtain ⟨h, hh, hlast⟩ := (Option.any_eq_true _ _).mp hrun
  simp only [Bool.and_eq_true, decide_eq_true_eq, List.isEmpty_iff] at hlast
  exact ⟨h, hlast.1, hlast.2, reach_lawful twoSwitches rfl (Reach.run (fun _ _ hok => hok) _ .start hh)⟩

/-- A removed link is drawn again when the next sweep reads only the other switch, and a
port with a long name gets a second link from the same reports. -/
theorem drawn_twice :
    (∃ h, run (step twoSwitches) [.sweep [(1, coreReport (lit "GigabitEthernet1/0/1"))] [] 1, .remove 1] noHistory = some h ∧
      ∃ k ∈ h.removed, ∃ e ∈ (record twoSwitches h.db [(2, distReport)] [] 2).links.rows,
        h.db.links.next ≤ e.1 ∧ linkKey twoSwitches.lib e.2 = k) ∧
    ∃ e ∈ (record twoSwitches (record twoSwitches noHistory.db [(1, coreReport longPort)] [] 1)
        [(1, coreReport longPort)] [] 2).links.rows,
      (record twoSwitches noHistory.db [(1, coreReport longPort)] [] 1).links.next ≤ e.1 := by
  constructor
  · have hrun : (run (step twoSwitches) [.sweep [(1, coreReport (lit "GigabitEthernet1/0/1"))] [] 1, .remove 1]
        noHistory).any (fun h => h.removed.any (fun k => (record twoSwitches h.db [(2, distReport)] [] 2).links.rows.any
          (fun e => decide (h.db.links.next ≤ e.1) && decide (linkKey twoSwitches.lib e.2 = k)))) = true := by
      with_unfolding_all decide
    obtain ⟨h, hh, hk⟩ := (Option.any_eq_true _ _).mp hrun
    obtain ⟨k, hk, he⟩ := List.any_eq_true.mp hk
    obtain ⟨e, he, hnew⟩ := List.any_eq_true.mp he
    simp only [Bool.and_eq_true, decide_eq_true_eq] at hnew
    exact ⟨h, hh, k, hk, e, he, hnew⟩
  · with_unfolding_all decide

end Cables
