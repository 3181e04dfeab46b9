import Ngcorion.Noc.Links

/-!
# What one sweep does to the map

The links of a sweep come out of a loop over the reported cables. A cable is left
alone, refers to a link that has its ports, takes a hand-drawn link without ports, or
gets a new link.
-/
namespace Sweeps

open Text FirstBy Serial Neighbors Links

variable {site : Site} {now : Nat}

/-! ## Cables of the sweep -/

theorem devices_key (g : Group) : (g.key site).devices = g.pair := rfl

theorem mem_groups {reports : List Report} {g : Group} (h : g ∈ groups site reports) :
    g.first ∈ reports ∧ g.members = reports.filter (fun r => r.cable site = g.key site) := by
  obtain ⟨r, hr, rfl⟩ := List.mem_map.mp h
  exact ⟨(mem_of_mem_firstBy hr).1, rfl⟩

theorem group_of_report {reports : List Report} {r : Report} (h : r ∈ reports) :
    ∃ g ∈ groups site reports, g.key site = r.cable site := by
  obtain ⟨r', hr', hkey⟩ := List.mem_map.mp (@key_mem_firstBy _ _ _ (Report.cable site) [] _ _ h (by simp))
  exact ⟨_, List.mem_map.mpr ⟨r', hr', rfl⟩, hkey⟩

theorem nodup_groups (reports : List Report) : ((groups site reports).map (Group.key site)).Nodup := by
  have h := @nodup_firstBy _ _ _ (Report.cable site) [] reports
  simpa [groups, List.map_map, Function.comp_def, Group.key] using h

/-! ## One cable -/

/-- What the loop does with a cable. -/
theorem drawGroup_cases (d : Drawing) (g : Group) :
    (g.suppressed = true ∧ drawGroup site now d g = d.leave (g.key site)) ∨
    (g.suppressed = false ∧ ∃ id, Dict.get d.byKey (g.key site) = some id ∧
      drawGroup site now d g = d.refer (g.key site) id) ∨
    (g.suppressed = false ∧ Dict.get d.byKey (g.key site) = none ∧
      ∃ id, Dict.get d.blank g.pair = some id ∧
        drawGroup site now d g = { d with blank := d.blank.eraseP (fun e => e.1 = g.pair) }.refer (g.key site) id) ∨
    (g.suppressed = false ∧ Dict.get d.byKey (g.key site) = none ∧ Dict.get d.blank g.pair = none ∧
      site.autoLinks = true ∧ drawGroup site now d g = d.create (g.key site) (g.first.draw site now none)) ∨
    (site.autoLinks = false ∧ drawGroup site now d g = d.leave (g.key site)) := by
  unfold drawGroup
  cases hsup : g.suppressed with
  | true => simp
  | false =>
    cases hkey : Dict.get d.byKey (g.key site) with
    | some id => simp
    | none =>
      cases hblank : Dict.get d.blank g.pair with
      | some id => simp
      | none =>
        cases hauto : site.autoLinks with
        | true => simp
        | false => simp

/-! ## All cables -/

/-- The loop keeps the links it found and refers only to links that are there. -/
structure Sound (links : LinkTable) (d : Drawing) : Prop where
  next : links.next ≤ d.links.next
  old : ∀ e ∈ links.rows, e ∈ d.links.rows
  new : ∀ e ∈ d.links.rows, e ∈ links.rows ∨ links.next ≤ e.1
  byKey : ∀ e ∈ d.byKey, ∃ l, (e.2, l) ∈ d.links.rows
  blank : ∀ e ∈ d.blank, ∃ l, (e.2, l) ∈ d.links.rows
  confirmed : ∀ id ∈ d.confirmed, ∃ l, (id, l) ∈ d.links.rows
  assigned : ∀ e ∈ d.assigned, ∀ id, e.2 = some id → id ∈ d.confirmed

section Sound

variable {links : LinkTable} {d : Drawing} {key : Key}

theorem Sound.leave (h : Sound links d) : Sound links (d.leave key) where
  next := h.next
  old := h.old
  new := h.new
  byKey := h.byKey
  blank := h.blank
  confirmed := h.confirmed
  assigned := by
    intro e he id hid
    rcases List.mem_cons.mp he with rfl | he
    · simp at hid
    · exact h.assigned e he id hid

theorem Sound.refer (h : Sound links d) {id : Nat} (hid : ∃ l, (id, l) ∈ d.links.rows) :
    Sound links (d.refer key id) where
  next := h.next
  old := h.old
  new := h.new
  byKey := h.byKey
  blank := h.blank
  confirmed := by
    intro i hi
    rcases List.mem_cons.mp hi with rfl | hi
    · exact hid
    · exact h.confirmed i hi
  assigned := by
    intro e he i hi
    rcases List.mem_cons.mp he with rfl | he
    · simp [Drawing.refer, Option.some.inj hi]
    · exact List.mem_cons_of_mem _ (h.assigned e he i hi)

theorem Sound.insert (h : Sound links d) (l : Link) :
    Sound links { d with links := d.links.insert l, byKey := (key, d.links.next) :: d.byKey } where
  next := Nat.le_succ_of_le h.next
  old e he := Table.mem_insert.mpr (Or.inl (h.old e he))
  new e he := by
    rcases Table.mem_insert.mp he with he | rfl
    · exact h.new e he
    · exact Or.inr h.next
  byKey e he := by
    rcases List.mem_cons.mp he with rfl | he
    · exact ⟨l, Table.mem_insert.mpr (Or.inr rfl)⟩
    · obtain ⟨l', hl'⟩ := h.byKey e he
      exact ⟨l', Table.mem_insert.mpr (Or.inl hl')⟩
  blank e he := by
    obtain ⟨l', hl'⟩ := h.blank e he
    exact ⟨l', Table.mem_insert.mpr (Or.inl hl')⟩
  confirmed id hid := by
    obtain ⟨l', hl'⟩ := h.confirmed id hid
    exact ⟨l', Table.mem_insert.mpr (Or.inl hl')⟩
  assigned := h.assigned

theorem Sound.erase (h : Sound links d) (p : Sym2 Nat × Nat → Bool) :
    Sound links { d with blank := d.blank.eraseP p } :=
  ⟨h.next, h.old, h.new, h.byKey, fun e he => h.blank e (List.eraseP_subset he), h.confirmed, h.assigned⟩

theorem Sound.drawGroup (h : Sound links d) (g : Group) : Sound links (drawGroup site now d g) := by
  rcases @drawGroup_cases site now d g with ⟨-, heq⟩ | ⟨-, id, hid, heq⟩ | ⟨-, -, id, hid, heq⟩ | ⟨-, -, -, -, heq⟩ |
    ⟨-, heq⟩
  · rw [heq]
    exact h.leave
  · rw [heq]
    exact h.refer (h.byKey _ (Dict.mem_of_get _ _ _ hid))
  · rw [heq]
    exact (h.erase _).refer (h.blank _ (Dict.mem_of_get _ _ _ hid))
  · rw [heq]
    exact (h.insert _).refer ⟨_, Table.mem_insert.mpr (Or.inr rfl)⟩
  · rw [heq]
    exact h.leave

theorem mem_byKey {e : Key × Nat} : e ∈ byKey site links ↔
    ∃ l, (e.2, l) ∈ links.rows ∧ l.status ≠ .planned ∧ l.blank = false ∧ linkKey site.lib l = e.1 := by
  simp only [byKey, List.mem_map, List.mem_filter, Bool.and_eq_true, decide_eq_true_eq, Bool.not_eq_true']
  constructor
  · rintro ⟨f, ⟨hf, hstatus, hblank⟩, rfl⟩
    exact ⟨f.2, hf, hstatus, hblank, rfl⟩
  · rintro ⟨l, hl, hstatus, hblank, hkey⟩
    exact ⟨(e.2, l), ⟨hl, hstatus, hblank⟩, Prod.ext hkey rfl⟩

theorem sound_draw (gs : List Group) : Sound links (draw site now links gs) := by
  apply List.foldlRecOn
  · refine ⟨Nat.le_refl _, fun _ h => h, fun _ h => Or.inl h, ?_, ?_, by simp, by simp⟩
    · intro e he
      obtain ⟨l, hl, -⟩ := mem_byKey.mp he
      exact ⟨l, hl⟩
    · intro e he
      obtain ⟨f, hf, rfl⟩ := List.mem_map.mp he
      exact ⟨f.2, (List.mem_filter.mp hf).1⟩
  · intro d hd g _
    exact hd.drawGroup g

end Sound

/-- What the loop has done so far stays. -/
structure Grows (d d' : Drawing) : Prop where
  links : ∀ e ∈ d.links.rows, e ∈ d'.links.rows
  confirmed : ∀ id ∈ d.confirmed, id ∈ d'.confirmed
  keys : ∀ k, (Dict.get d.byKey k).isSome = true → (Dict.get d'.byKey k).isSome = true

theorem Grows.refl (d : Drawing) : Grows d d := ⟨fun _ h => h, fun _ h => h, fun _ h => h⟩

theorem Grows.trans {d d' d'' : Drawing} (h : Grows d d') (h' : Grows d' d'') : Grows d d'' :=
  ⟨fun e he => h'.links e (h.links e he), fun i hi => h'.confirmed i (h.confirmed i hi),
    fun k hk => h'.keys k (h.keys k hk)⟩

theorem grows_refer (d : Drawing) (key : Key) (id : Nat) : Grows d (d.refer key id) :=
  ⟨fun _ h => h, fun _ h => List.mem_cons_of_mem _ h, fun _ h => h⟩

theorem grows_create (d : Drawing) (key : Key) (l : Link) : Grows d (d.create key l) where
  links e he := Table.mem_insert.mpr (Or.inl he)
  confirmed _ h := List.mem_cons_of_mem _ h
  keys k hk := by
    simp only [Drawing.create, Drawing.refer, Dict.get]
    split
    · rfl
    · exact hk

theorem grows_drawGroup (d : Drawing) (g : Group) : Grows d (drawGroup site now d g) := by
  rcases @drawGroup_cases site now d g with ⟨-, heq⟩ | ⟨-, id, -, heq⟩ | ⟨-, -, id, -, heq⟩ | ⟨-, -, -, -, heq⟩ | ⟨-, heq⟩
  · rw [heq]
    exact ⟨fun _ h => h, fun _ h => h, fun _ h => h⟩
  · rw [heq]
    exact grows_refer _ _ _
  · rw [heq]
    exact ⟨fun _ h => h, fun _ h => List.mem_cons_of_mem _ h, fun _ h => h⟩
  · rw [heq]
    exact grows_create _ _ _
  · rw [heq]
    exact ⟨fun _ h => h, fun _ h => h, fun _ h => h⟩

theorem grows_fold (gs : List Group) (d : Drawing) : Grows d (gs.foldl (drawGroup site now) d) := by
  apply List.foldlRecOn
  · exact Grows.refl d
  · intro d' hd' g _
    exact hd'.trans (grows_drawGroup d' g)

/-! ## New links -/

/-- The names of the ports keep their keys when they are shortened, as far as a link is drawn. -/
def KeepsPorts (site : Site) (d : Drawing) (gs : List Group) : Prop :=
  ∀ g ∈ gs, g.suppressed = true ∨ (Dict.get d.byKey (g.key site)).isSome = true ∨ site.autoLinks = false ∨
    g.first.shortCable site = g.key site

theorem KeepsPorts.drawGroup {d : Drawing} {g : Group} {gs : List Group} (h : KeepsPorts site d (g :: gs)) :
    KeepsPorts site (drawGroup site now d g) gs := by
  intro g' hg'
  rcases h g' (List.mem_cons_of_mem _ hg') with hs | hk | hrest
  · exact Or.inl hs
  · exact Or.inr (Or.inl ((grows_drawGroup d g).keys _ hk))
  · exact Or.inr (Or.inr hrest)

/-- Every new link is the one of a cable that no report suppresses. -/
def NewLinks (site : Site) (links : LinkTable) (gs : List Group) (d : Drawing) : Prop :=
  ∀ e ∈ d.links.rows, links.next ≤ e.1 → ∃ g ∈ gs, g.suppressed = false ∧ linkKey site.lib e.2 = g.key site

theorem newLinks_draw {links : LinkTable} {gs : List Group} (hports : KeepsPorts site (draw site now links []) gs) :
    NewLinks site links gs (draw site now links gs) := by
  suffices h : Grows (draw site now links []) (draw site now links gs) ∧
      NewLinks site links gs (draw site now links gs) from h.2
  refine List.foldlRecOn (motive := fun d => Grows (draw site now links []) d ∧ NewLinks site links gs d) gs
    (drawGroup site now) ⟨Grows.refl _, ?_⟩ ?_
  · intro e he hnext
    have := links.fresh e he
    omega
  · intro d hd g hg
    refine ⟨hd.1.trans (grows_drawGroup d g), ?_⟩
    rcases @drawGroup_cases site now d g with ⟨-, heq⟩ | ⟨-, id, -, heq⟩ | ⟨-, -, id, -, heq⟩ |
      ⟨hsup, hkey, -, hauto, heq⟩ | ⟨-, heq⟩
    · rw [heq]
      exact hd.2
    · rw [heq]
      exact hd.2
    · rw [heq]
      exact hd.2
    · rw [heq]
      intro e he hnext
      rcases Table.mem_insert.mp he with he | rfl
      · exact hd.2 e he hnext
      · refine ⟨g, hg, hsup, ?_⟩
        rcases hports g hg with hs | hk | ha | hshort
        · simp [hsup] at hs
        · simpa [hkey] using hd.1.keys _ hk
        · simp [hauto] at ha
        · exact hshort
    · rw [heq]
      exact hd.2

/-! ## Hand-drawn links without ports -/

section Blank

variable {d : Drawing} {p : Sym2 Nat}

theorem countP_eraseP {blank : List (Sym2 Nat × Nat)} {pair : Sym2 Nat} {id : Nat}
    (h : Dict.get blank pair = some id) (p : Sym2 Nat) : blank.countP (fun e => e.1 = p) =
      (blank.eraseP (fun e => e.1 = pair)).countP (fun e => e.1 = p) + if pair = p then 1 else 0 := by
  obtain ⟨a, l₁, l₂, -, ha, heq, herase⟩ :=
    List.exists_of_eraseP (p := fun e : Sym2 Nat × Nat => e.1 = pair) (Dict.mem_of_get _ _ _ h) (by simp)
  simp only [decide_eq_true_eq] at ha
  rw [herase, heq]
  simp only [List.countP_append, List.countP_cons, decide_eq_true_eq, ha]
  omega

/-- The cable has no link with its ports. -/
def needy (site : Site) (d : Drawing) (g : Group) : Bool :=
  !g.suppressed && (Dict.get d.byKey (g.key site)).isNone

/-- With enough hand-drawn links for the cables that have no link, no link is drawn. -/
theorem fold_links (gs : List Group) (d : Drawing)
    (h : ∀ p, gs.countP (fun g => needy site d g && g.pair = p) ≤ d.blank.countP (fun e => e.1 = p)) :
    (gs.foldl (drawGroup site now) d).links = d.links := by
  induction gs generalizing d with
  | nil => rfl
  | cons g gs ih =>
    rw [List.foldl_cons]
    have hgs : ∀ p, gs.countP (fun g => needy site d g && g.pair = p) + (if needy site d g && g.pair = p then 1 else 0)
        ≤ d.blank.countP (fun e => e.1 = p) := by
      intro p
      rw [← List.countP_cons]
      exact h p
    rcases @drawGroup_cases site now d g with ⟨-, heq⟩ | ⟨-, id, -, heq⟩ | ⟨hsup, hkey, id, hid, heq⟩ |
      ⟨hsup, hkey, hblank, -, heq⟩ | ⟨-, heq⟩
    · rw [heq]
      exact ih _ (fun p => Nat.le_trans (Nat.le_add_right _ _) (hgs p))
    · rw [heq]
      exact ih _ (fun p => Nat.le_trans (Nat.le_add_right _ _) (hgs p))
    · rw [heq]
      refine ih _ (fun p => ?_)
      have hcount := hgs p
      rw [countP_eraseP hid p] at hcount
      have hneedy : needy site d g = true := by simp [needy, hsup, hkey]
      simp only [hneedy, Bool.true_and, decide_eq_true_eq] at hcount
      exact Nat.le_of_add_le_add_right hcount
    · have hcount := hgs g.pair
      have hnone : d.blank.countP (fun e => e.1 = g.pair) = 0 := by
        rw [List.countP_eq_zero]
        intro e he hpair
        refine (Dict.get_eq_none _ _).mp hblank ?_
        exact List.mem_map.mpr ⟨e, he, by simpa using hpair⟩
      have hneedy : needy site d g = true := by simp [needy, hsup, hkey]
      simp [hnone, hneedy] at hcount
    · rw [heq]
      exact ih _ (fun p => Nat.le_trans (Nat.le_add_right _ _) (hgs p))

end Blank

/-! ## After the loop -/

section Settle

variable {links : LinkTable} {d : Drawing} {read : List Nat} {id : Nat} {l : Link}

/-- A sweep changes when a link was seen, and nothing else of it. -/
theorem touch_eq (confirmed : List Nat) : touch now read confirmed id l =
    { l with lastSeen := (touch now read confirmed id l).lastSeen,
             missingSince := (touch now read confirmed id l).missingSince } := by
  unfold touch
  split
  · rfl
  · split <;> rfl

/-- A link that the sweep saw stays. -/
theorem settle_confirmed (hl : (id, l) ∈ d.links.rows) (hid : id ∈ d.confirmed) :
    (id, { l with lastSeen := some now, missingSince := none }) ∈ (settle now read d).rows := by
  refine Table.mem_keep.mpr ⟨Table.mem_modify.mpr ⟨l, hl, ?_⟩, by simp [gone]⟩
  simp [touch, hid]

/-- A hand-drawn link stays. -/
theorem settle_manual (hl : (id, l) ∈ d.links.rows) (hmanual : l.origin = .manual) :
    (id, touch now read d.confirmed id l) ∈ (settle now read d).rows := by
  refine Table.mem_keep.mpr ⟨Table.mem_modify.mpr ⟨l, hl, rfl⟩, ?_⟩
  have horigin : (touch now read d.confirmed id l).origin = .manual := by
    rw [touch_eq]
    exact hmanual
  simp [gone, horigin]

theorem of_mem_settle {e : Nat × Link} (he : e ∈ (settle now read d).rows) :
    ∃ l, (e.1, l) ∈ d.links.rows ∧ touch now read d.confirmed e.1 l = e.2 :=
  Table.mem_modify.mp (Table.mem_keep.mp he).1

theorem linked_iff {key : Key} : linked site links key = true ↔
    ∃ e ∈ links.rows, e.2.status ≠ .planned ∧ e.2.blank = false ∧ linkKey site.lib e.2 = key := by
  have hkeys : linked site links key = true ↔ key ∈ Dict.keys (byKey site links) := by
    rw [linked, Option.isSome_iff_ne_none, ne_eq, Dict.get_eq_none, not_not]
  rw [hkeys]
  constructor
  · intro h
    obtain ⟨f, hf, rfl⟩ := List.mem_map.mp h
    obtain ⟨l, hl, hrest⟩ := mem_byKey.mp hf
    exact ⟨(f.2, l), hl, hrest⟩
  · rintro ⟨e, he, hrest⟩
    exact List.mem_map.mpr ⟨(key, e.1), mem_byKey.mpr ⟨e.2, he, hrest⟩, rfl⟩

/-- Every key of the loop stands for a link with its ports. -/
def Valid (site : Site) (d : Drawing) : Prop :=
  ∀ e ∈ d.byKey, ∃ l, (e.2, l) ∈ d.links.rows ∧ l.status ≠ .planned ∧ l.blank = false ∧ linkKey site.lib l = e.1

theorem valid_start (links : LinkTable) : Valid site (draw site now links []) := fun _ he => mem_byKey.mp he

theorem Valid.drawGroup {g : Group} {gs : List Group} (h : Valid site d) (hports : KeepsPorts site d (g :: gs)) :
    Valid site (drawGroup site now d g) := by
  rcases @drawGroup_cases site now d g with ⟨-, heq⟩ | ⟨-, id, -, heq⟩ | ⟨-, -, id, -, heq⟩ |
    ⟨hsup, hkey, -, hauto, heq⟩ | ⟨-, heq⟩
  · rw [heq]
    exact h
  · rw [heq]
    exact h
  · rw [heq]
    exact h
  · rw [heq]
    intro e he
    rcases List.mem_cons.mp he with rfl | he
    · have hshort : g.first.shortCable site = g.key site := by
        simpa [hsup, hkey, hauto] using hports g List.mem_cons_self
      exact ⟨_, Table.mem_insert.mpr (Or.inr rfl), by simp [Report.draw], by simp [Link.blank, Report.draw], hshort⟩
    · obtain ⟨l, hl, hrest⟩ := h e he
      exact ⟨l, Table.mem_insert.mpr (Or.inl hl), hrest⟩
  · rw [heq]
    exact h

/-- A link that the sweep saw has its ports also afterwards. -/
theorem linked_confirmed {d' : Drawing} (hvalid : Valid site d) (hgrows : Grows d d') {key : Key}
    (hkey : Dict.get d.byKey key = some id) (hid : id ∈ d'.confirmed) : linked site (settle now read d') key = true := by
  obtain ⟨l, hl, hstatus, hblank, hlink⟩ := hvalid _ (Dict.mem_of_get _ _ _ hkey)
  exact linked_iff.mpr ⟨_, settle_confirmed (hgrows.links _ hl) hid, hstatus, hblank, hlink⟩

/-- The cables that have no link with their ports after the loop have taken hand-drawn ones. -/
theorem fold_blank (hauto : site.autoLinks = true) (gs : List Group) (d : Drawing) (hvalid : Valid site d)
    (hports : KeepsPorts site d gs) (p : Sym2 Nat) :
    gs.countP (fun g => !g.suppressed && !linked site (settle now read (gs.foldl (drawGroup site now) d)) (g.key site) &&
      g.pair = p) + (gs.foldl (drawGroup site now) d).blank.countP (fun e => e.1 = p) ≤
    d.blank.countP (fun e => e.1 = p) := by
  induction gs generalizing d with
  | nil => simp
  | cons g gs ih =>
    have hrest := ih (drawGroup site now d g) (hvalid.drawGroup hports) hports.drawGroup
    have hgrows := @grows_fold site now gs (drawGroup site now d g)
    rw [List.foldl_cons, List.countP_cons]
    rcases @drawGroup_cases site now d g with ⟨hsup, heq⟩ | ⟨-, id, hid, heq⟩ | ⟨-, -, id, hid, heq⟩ |
      ⟨-, -, -, -, heq⟩ | ⟨hnot, -⟩
    · have hblank : (drawGroup site now d g).blank = d.blank := by rw [heq]; rfl
      rw [hblank] at hrest
      simpa [hsup] using hrest
    · have hblank : (drawGroup site now d g).blank = d.blank := by rw [heq]; rfl
      have hconfirmed : id ∈ (drawGroup site now d g).confirmed := by simp [heq, Drawing.refer]
      have hlinked := @linked_confirmed site now d read id _ hvalid ((grows_drawGroup d g).trans hgrows) _ hid
        (hgrows.confirmed id hconfirmed)
      rw [hblank] at hrest
      simpa [hlinked] using hrest
    · have hblank : (drawGroup site now d g).blank = d.blank.eraseP (fun e => e.1 = g.pair) := by rw [heq]; rfl
      rw [countP_eraseP hid p, ← hblank]
      split
      · rename_i hp
        simp only [Bool.and_eq_true, decide_eq_true_eq] at hp
        rw [if_pos hp.2]
        omega
      · omega
    · have hblank : (drawGroup site now d g).blank = d.blank := by rw [heq]; rfl
      have hkey : Dict.get (drawGroup site now d g).byKey (g.key site) = some d.links.next := by
        simp [heq, Drawing.create, Drawing.refer, Dict.get]
      have hconfirmed : d.links.next ∈ (drawGroup site now d g).confirmed := by
        simp [heq, Drawing.create, Drawing.refer]
      have hlinked := @linked_confirmed site now _ read _ _ (hvalid.drawGroup hports) hgrows _ hkey
        (hgrows.confirmed _ hconfirmed)
      rw [hblank] at hrest
      simpa [hlinked] using hrest
    · simp [hauto] at hnot

theorem countP_blanks (links : LinkTable) (p : Sym2 Nat) : (blanks links).countP (fun e => e.1 = p) =
    links.rows.countP (fun e => e.2.status ≠ .planned && e.2.blank && s(e.2.source, e.2.destination) = p) := by
  simp only [blanks, List.countP_map, List.countP_filter, Function.comp_def]
  congr 1
  funext e
  rw [Bool.and_comm]

/-- The hand-drawn links without ports are there also afterwards. -/
theorem countP_settle (hsound : Sound links d) (p : Sym2 Nat) :
    (blanks links).countP (fun e => e.1 = p) ≤ (blanks (settle now read d)).countP (fun e => e.1 = p) := by
  rw [countP_blanks, countP_blanks]
  refine @countP_le_countP _ _ _ Prod.fst Prod.fst _ _ _ _ links.nodup ?_
  intro e he hblank
  simp only [Bool.and_eq_true, decide_eq_true_eq] at hblank
  obtain ⟨⟨hstatus, hb⟩, hpair⟩ := hblank
  have hmanual : e.2.origin = .manual := by
    simp only [Link.blank, Bool.and_eq_true, decide_eq_true_eq] at hb
    exact hb.1.1
  refine ⟨_, settle_manual (hsound.old e he) hmanual, ?_, rfl⟩
  have hsame := @touch_eq now read e.1 e.2 d.confirmed
  rw [hsame]
  simp only [Bool.and_eq_true, decide_eq_true_eq]
  exact ⟨⟨hstatus, hb⟩, hpair⟩

end Settle

section Record

variable {db : Db} {reports : Reports} {errors : Errors}

/-- The loop of a sweep. -/
abbrev drawn (site : Site) (db : Db) (reports : Reports) (errors : Errors) (now : Nat) : Drawing :=
  draw site now db.links (groups site (seen now (noted site db reports errors now)))

abbrev readNow (db : Db) (reports : Reports) (errors : Errors) (now : Nat) : List Nat :=
  readOk now (noteSources now reports errors db.sources)

theorem record_links : (record site db reports errors now).links =
    settle now (readNow db reports errors now) (drawn site db reports errors now) := rfl

theorem record_sources : (record site db reports errors now).sources = noteSources now reports errors db.sources := rfl

/-- The row after the loop: only the link that it refers to may differ. -/
abbrev settled (site : Site) (db : Db) (reports : Reports) (errors : Errors) (now : Nat) (r : Row) : Row :=
  clear (record site db reports errors now).links (refer site now (drawn site db reports errors now) r)

theorem refer_eq (d : Drawing) (r : Row) : refer site now d r = { r with link := (refer site now d r).link } := by
  unfold refer
  split <;> rfl

theorem settled_eq (r : Row) : settled site db reports errors now r =
    { r with link := (settled site db reports errors now r).link } := by
  unfold settled clear
  rw [refer_eq]

theorem mem_record {r : Row} : r ∈ (record site db reports errors now).neighbors ↔
    ∃ r₀ ∈ noted site db reports errors now, ¬ r₀.lastSeen + forgetAfter < now ∧
      settled site db reports errors now r₀ = r := by
  have hrows : (record site db reports errors now).neighbors =
      ((noted site db reports errors now).map (settled site db reports errors now)).filter
        (fun r => !(r.lastSeen + forgetAfter < now)) := rfl
  simp only [hrows, List.mem_filter, List.mem_map, Bool.not_eq_true', decide_eq_false_iff_not]
  constructor
  · rintro ⟨⟨r₀, hr₀, rfl⟩, hkept⟩
    rw [settled_eq] at hkept
    exact ⟨r₀, hr₀, hkept, rfl⟩
  · rintro ⟨r₀, hr₀, hkept, rfl⟩
    rw [settled_eq]
    exact ⟨⟨r₀, hr₀, settled_eq r₀⟩, hkept⟩

theorem cable_link (r : Row) (link : Option Nat) : cable site { r with link := link } = cable site r := by
  cases hm : r.matched with
  | none => simp [cable, reportOf, hm]
  | some other => simp [cable, reportOf, hm, Report.cable, Report.ends]

theorem cable_settled (r : Row) : cable site (settled site db reports errors now r) = cable site r := by
  rw [settled_eq, cable_link]

/-- After a sweep all its reports of a cable refer to one link, which is there, or to none. -/
theorem record_oneLink (key : Key) : ∃ id : Option Nat,
    (∀ r ∈ (record site db reports errors now).neighbors, r.lastSeen = now → cable site r = some key → r.link = id) ∧
      ∀ i, id = some i → ∃ l, (i, l) ∈ (record site db reports errors now).links.rows := by
  have hsound := @sound_draw site now db.links (groups site (seen now (noted site db reports errors now)))
  have hthere : ∀ i, (Dict.get (drawn site db reports errors now).assigned key).join = some i →
      ∃ l, (i, l) ∈ (record site db reports errors now).links.rows := by
    intro i hi
    obtain hget := Option.join_eq_some_iff.mp hi
    have hconfirmed := hsound.assigned _ (Dict.mem_of_get _ _ _ hget) i rfl
    obtain ⟨l, hl⟩ := hsound.confirmed i hconfirmed
    exact ⟨_, settle_confirmed hl hconfirmed⟩
  refine ⟨(Dict.get (drawn site db reports errors now).assigned key).join, ?_, hthere⟩
  intro r hr hnow hcable
  obtain ⟨r₀, -, -, rfl⟩ := mem_record.mp hr
  rw [cable_settled] at hcable
  have hnow₀ : r₀.lastSeen = now := by
    rw [settled_eq] at hnow
    exact hnow
  have hrefer : (refer site now (drawn site db reports errors now) r₀).link =
      (Dict.get (drawn site db reports errors now).assigned key).join := by
    simp [refer, hnow₀, hcable]
  unfold settled clear
  rw [hrefer]
  cases hid : (Dict.get (drawn site db reports errors now).assigned key).join with
  | none => rfl
  | some i =>
    obtain ⟨l, hl⟩ := hthere i hid
    simp only [Option.filter_some, ite_eq_left_iff, Bool.not_eq_true]
    intro hnot
    simp only [List.any_eq_false, decide_eq_true_eq] at hnot
    exact absurd rfl (hnot _ hl)

/-- A sweep changes nothing of a hand-drawn link but when it was seen. -/
theorem record_manual {e : Nat × Link} (he : e ∈ db.links.rows) (hmanual : e.2.origin = .manual) :
    ∃ l, (e.1, l) ∈ (record site db reports errors now).links.rows ∧
      l = { e.2 with lastSeen := l.lastSeen, missingSince := l.missingSince } := by
  have hsound := @sound_draw site now db.links (groups site (seen now (noted site db reports errors now)))
  exact ⟨_, settle_manual (hsound.old e he) hmanual, touch_eq _⟩

end Record

end Sweeps
