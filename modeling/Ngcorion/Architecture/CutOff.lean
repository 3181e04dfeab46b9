import Ngcorion.Architecture.SafeTopology

/-!
# What a failing device cuts off

Without a device the network around it falls into parts. The heaviest stays the network, and the assets of the others
that hold a network device are cut off. Where nothing is cut off, the network devices that were joined stay joined.
-/
namespace CutOff

open Text SafeTopology

variable (t : Topology)

/-- Joined by links that are up. -/
def Joined : Int → Int → Prop := Relation.ReflTransGen t.Linked

/-- Joined by links that are up, without the device `d`. -/
def JoinedWithout (d : Int) : Int → Int → Prop :=
  Relation.ReflTransGen (fun a b => t.Linked a b ∧ a ≠ d ∧ b ≠ d)

/-- `part` lists what is joined to `m` without `d`. -/
structure PartOf (d m : Int) (part : List Int) : Prop where
  nodup : part.Nodup
  mem_iff : ∀ x, x ∈ part ↔ JoinedWithout t d m x

/-- The side of `d` that stays the network: no other side weighs more. -/
def MainSide (d main : Int) : Prop :=
  ∀ m, t.Linked d m → m ≠ d → ∀ part mainPart, PartOf t d m part → PartOf t d main mainPart →
    t.weight part ≤ t.weight mainPart

variable {t}

theorem symmetric : Search.Symmetric t.adj := fun _ _ h => (mem_adj t).mpr (linked_symm t ((mem_adj t).mp h))

theorem avoiding_iff {d x y : Int} : Search.Avoiding t.adj d x y ↔ JoinedWithout t d x y := by
  simp only [Search.Avoiding, JoinedWithout, mem_adj]

theorem isPart_iff {d m : Int} {part : List Int} : Search.IsPart t.adj d m part ↔ PartOf t d m part := by
  constructor
  · exact fun h => ⟨h.nodup, fun x => (h.mem_iff x).trans avoiding_iff⟩
  · exact fun h => ⟨h.nodup, fun x => (h.mem_iff x).trans avoiding_iff.symm⟩

theorem parts (d : Int) : ∃ seen, Search.Parts t.adj d (t.adj d) (t.parts_without d) seen := by
  have hnodes : ∀ x ∈ t.adj d, x ∈ t.nodes := fun x hx => (linked_nodes t ((mem_adj t).mp hx)).2
  have hbegin : Search.Parts t.adj d [] (([], [d]) : List (List Int) × List Int).1 [d] := Search.parts_begin t.adj d
  exact ⟨_, Search.parts_run (graph t) symmetric (t.adj d) hnodes hbegin⟩

theorem part_of_mem {d : Int} {part : List Int} (h : part ∈ t.parts_without d) :
    ∃ m, t.Linked d m ∧ m ≠ d ∧ PartOf t d m part := by
  obtain ⟨seen, hparts⟩ := parts (t := t) d
  obtain ⟨m, hm, hmd, hpart⟩ := hparts.part part h
  exact ⟨m, (mem_adj t).mp hm, hmd, isPart_iff.mp hpart⟩

/-- Parts of joined nodes have the same members. -/
theorem PartOf.congr {d m n : Int} {p q : List Int} (hp : PartOf t d m p) (hq : PartOf t d n q)
    (h : JoinedWithout t d m n) : p.Perm q := by
  have hback : JoinedWithout t d n m := avoiding_iff.mp (Search.Avoiding.symm symmetric (avoiding_iff.mpr h))
  refine (List.perm_ext_iff_of_nodup hp.nodup hq.nodup).mpr (fun x => ?_)
  rw [hp.mem_iff, hq.mem_iff]
  exact ⟨hback.trans, h.trans⟩

theorem part_of_side {d m : Int} (hm : t.Linked d m) (hmd : m ≠ d) :
    ∃ part ∈ t.parts_without d, PartOf t d m part := by
  obtain ⟨seen, hparts⟩ := parts (t := t) d
  obtain ⟨part, hpart, hmem⟩ := hparts.all m ((mem_adj t).mpr hm) hmd
  obtain ⟨n, -, -, hn⟩ := part_of_mem hpart
  have hjoined : JoinedWithout t d n m := (hn.mem_iff m).mp hmem
  have hback : JoinedWithout t d m n := avoiding_iff.mp (Search.Avoiding.symm symmetric (avoiding_iff.mpr hjoined))
  refine ⟨part, hpart, hn.nodup, fun x => ?_⟩
  rw [hn.mem_iff]
  exact ⟨hback.trans, hjoined.trans⟩

theorem PartOf.self {d m : Int} {part : List Int} (h : PartOf t d m part) : m ∈ part := (h.mem_iff m).mpr .refl

/-! ## The weights of the parts -/

theorem min?_perm {p q : List Int} (h : p.Perm q) : p.min? = q.min? := by
  cases hp : p.min? with
  | none =>
    rw [List.min?_eq_none_iff] at hp
    have hq : q = [] := (hp ▸ h.symm : q.Perm []).eq_nil
    rw [hq]
    rfl
  | some a =>
    obtain ⟨hmem, hle⟩ := List.min?_eq_some_iff.mp hp
    exact (List.min?_eq_some_iff.mpr ⟨h.mem_iff.mp hmem, fun b hb => hle b (h.mem_iff.mpr hb)⟩).symm

theorem weight_perm {p q : List Int} (h : p.Perm q) : t.weight p = t.weight q := by
  have hany : p.any t.outside = q.any t.outside := by
    rw [Bool.eq_iff_iff, List.any_eq_true, List.any_eq_true]
    exact ⟨fun ⟨x, hx, ho⟩ => ⟨x, h.mem_iff.mp hx, ho⟩, fun ⟨x, hx, ho⟩ => ⟨x, h.mem_iff.mpr hx, ho⟩⟩
  rw [Topology.weight, Topology.weight, hany, h.countP_eq, h.length_eq, min?_perm h]

/-- Parts of one weight have the same least node, so they are not apart. -/
theorem not_disjoint_of_weight {p q : List Int} (hp : p ≠ []) (hq : q ≠ []) (h : t.weight p = t.weight q) :
    ¬ p.Disjoint q := by
  have hleast : ∀ {l : List Int}, l ≠ [] → l.min?.getD 0 ∈ l := by
    intro l hl
    obtain ⟨a, ha⟩ := Option.isSome_iff_exists.mp (List.isSome_min?_of_ne_nil hl)
    rw [ha, Option.getD_some]
    exact (List.min?_eq_some_iff.mp ha).1
  have hmin : p.min?.getD 0 = q.min?.getD 0 := by
    simp only [Topology.weight, toLex_inj, Prod.mk.injEq] at h
    exact Int.neg_inj.mp h.2.2.2
  exact fun hdisjoint => hdisjoint (hleast hp) (hmin ▸ hleast hq)

theorem ranked_perm (d : Int) : (t.rankedParts d).Perm (t.parts_without d) := List.perm_insertionSort _ _

theorem ranked_sorted (d : Int) : (t.rankedParts d).Pairwise (fun p q => t.weight q ≤ t.weight p) :=
  List.pairwise_insertionSort _ _

/-- The first part is that of a main side, and the only one. -/
theorem head_iff {d : Int} {head : List Int} {rest : List (List Int)} (h : t.rankedParts d = head :: rest) {m : Int}
    (hm : t.Linked d m) (hmd : m ≠ d) : MainSide t d m ↔ m ∈ head := by
  obtain ⟨seen, hparts⟩ := parts (t := t) d
  have hmem : ∀ {p}, p ∈ t.parts_without d ↔ p = head ∨ p ∈ rest := by
    intro p
    rw [← (ranked_perm d).mem_iff, h, List.mem_cons]
  have hheavy : ∀ p ∈ t.parts_without d, t.weight p ≤ t.weight head := by
    intro p hp
    rcases hmem.mp hp with rfl | hp
    · exact le_rfl
    · exact (List.pairwise_cons.mp (h ▸ ranked_sorted d)).1 p hp
  obtain ⟨n, hn, hnd, hhead⟩ := part_of_mem (hmem.mpr (.inl rfl))
  obtain ⟨part, hpart, hmpart⟩ := part_of_side hm hmd
  constructor
  · intro hmain
    have hweight : t.weight head = t.weight part :=
      le_antisymm (hmain n hn hnd head part hhead hmpart) (hheavy part hpart)
    have hsame : ¬ head.Disjoint part := not_disjoint_of_weight (List.ne_nil_of_mem hhead.self)
      (List.ne_nil_of_mem hmpart.self) hweight
    by_contra hnot
    have hne : part ≠ head := fun heq => hnot (heq ▸ hmpart.self)
    have hapart : (head :: rest).Pairwise List.Disjoint :=
      h ▸ ((ranked_perm d).pairwise_iff List.Disjoint.symm).mpr hparts.apart
    exact hsame ((List.pairwise_cons.mp hapart).1 part ((hmem.mp hpart).resolve_left hne))
  · intro hmhead k hk hkd p q hp hq
    obtain ⟨p', hp', hpk⟩ := part_of_side hk hkd
    rw [weight_perm (hp.congr hpk .refl), weight_perm (hq.congr hhead (avoiding_iff.mp
      (Search.Avoiding.symm symmetric (avoiding_iff.mpr ((hhead.mem_iff m).mp hmhead)))))]
    exact hheavy p' hp'

/-- A side that is not the main one and holds a network device is cut off. -/
theorem mem_cut_off {d x main m y : Int} (hdevice : t.isDevice d = true) (hmain : t.Linked d main) (hmaind : main ≠ d)
    (hheavy : MainSide t d main) (hm : t.Linked d m) (hmd : m ≠ d) (hapart : ¬ JoinedWithout t d main m)
    (hx : JoinedWithout t d m x) (hydevice : t.isDevice y = true) (hy : JoinedWithout t d m y) :
    x ∈ t.cut_off_by d := by
  rw [Topology.cut_off_by]
  have htwo : ¬ (t.adj d).length < 2 := by
    have hmainadj := (mem_adj t).mpr hmain
    have hmadj := (mem_adj t).mpr hm
    match hadj : t.adj d with
    | [] => rw [hadj] at hmadj; cases hmadj
    | [a] =>
      rw [hadj] at hmainadj hmadj
      rw [List.mem_singleton.mp hmainadj, List.mem_singleton.mp hmadj] at hapart
      exact absurd .refl hapart
    | a :: b :: l => simp
  rw [if_neg (by simp [hdevice, htwo])]
  obtain ⟨part, hpart, hmpart⟩ := part_of_side hm hmd
  cases hranked : t.rankedParts d with
  | nil =>
    rw [← (ranked_perm d).mem_iff, hranked] at hpart
    cases hpart
  | cons head rest =>
    have hmainhead := (head_iff hranked hmain hmaind).mp hheavy
    obtain ⟨n, -, -, hhead⟩ := part_of_mem ((ranked_perm d).mem_iff.mp (hranked ▸ List.mem_cons_self))
    have hne : part ≠ head := by
      rintro rfl
      have hback := Search.Avoiding.symm symmetric (avoiding_iff.mpr ((hhead.mem_iff main).mp hmainhead))
      exact hapart ((avoiding_iff.mp hback).trans ((hhead.mem_iff m).mp hmpart.self))
    have hrest : part ∈ rest := by
      rw [← (ranked_perm d).mem_iff, hranked] at hpart
      exact List.mem_of_ne_of_mem hne hpart
    refine List.mem_flatten.mpr ⟨part, List.mem_filter.mpr ⟨hrest, ?_⟩, (hmpart.mem_iff x).mpr hx⟩
    exact List.any_eq_true.mpr ⟨y, (hmpart.mem_iff y).mpr hy, hydevice⟩

/-- What a device cuts off: what is joined to a side that holds a network device and is not the main one. -/
theorem cut_off_exact (t : Topology) (d x : Int) :
    x ∈ t.cut_off_by d ↔ t.isDevice d = true ∧ ∃ main m, t.Linked d main ∧ main ≠ d ∧ MainSide t d main ∧
      t.Linked d m ∧ m ≠ d ∧ ¬ JoinedWithout t d main m ∧ JoinedWithout t d m x ∧
        ∃ y, t.isDevice y = true ∧ JoinedWithout t d m y := by
  rw [Topology.cut_off_by]
  constructor
  · intro hx
    split at hx
    · cases hx
    rename_i hdevice
    rw [not_or, not_not] at hdevice
    obtain ⟨part, hpart, hxpart⟩ := List.mem_flatten.mp hx
    obtain ⟨htail, hany⟩ := List.mem_filter.mp hpart
    obtain ⟨y, hy, hydevice⟩ := List.any_eq_true.mp hany
    cases hranked : t.rankedParts d with
    | nil => rw [hranked] at htail; cases htail
    | cons head rest =>
      rw [hranked, List.tail_cons] at htail
      obtain ⟨seen, hparts⟩ := parts (t := t) d
      have hapart : (head :: rest).Pairwise List.Disjoint :=
        hranked ▸ ((ranked_perm d).pairwise_iff List.Disjoint.symm).mpr hparts.apart
      have hmem : ∀ {p}, p ∈ head :: rest → p ∈ t.parts_without d :=
        fun hp => (ranked_perm d).mem_iff.mp (hranked ▸ hp)
      obtain ⟨main, hmain, hmaind, hhead⟩ := part_of_mem (hmem List.mem_cons_self)
      obtain ⟨m, hm, hmd, hmpart⟩ := part_of_mem (hmem (List.mem_cons_of_mem _ htail))
      have hheavy : MainSide t d main := (head_iff hranked hmain hmaind).mpr hhead.self
      refine ⟨hdevice.1, main, m, hmain, hmaind, hheavy, hm, hmd, fun hjoined => ?_,
        (hmpart.mem_iff x).mp hxpart, y, hydevice, (hmpart.mem_iff y).mp hy⟩
      exact (List.pairwise_cons.mp hapart).1 part htail ((hhead.mem_iff m).mpr hjoined) hmpart.self
  · rintro ⟨hdevice, main, m, hmain, hmaind, hheavy, hm, hmd, hapart, hx, y, hydevice, hy⟩
    exact mem_cut_off hdevice hmain hmaind hheavy hm hmd hapart hx hydevice hy

/-- A main side there is, where there is a side. -/
theorem exists_main {d m : Int} (hm : t.Linked d m) (hmd : m ≠ d) :
    ∃ main, t.Linked d main ∧ main ≠ d ∧ MainSide t d main := by
  obtain ⟨part, hpart, -⟩ := part_of_side hm hmd
  cases hranked : t.rankedParts d with
  | nil =>
    rw [← (ranked_perm d).mem_iff, hranked] at hpart
    cases hpart
  | cons head rest =>
    obtain ⟨n, hn, hnd, hhead⟩ := part_of_mem ((ranked_perm d).mem_iff.mp (hranked ▸ List.mem_cons_self))
    exact ⟨n, hn, hnd, (head_iff hranked hn hnd).mpr hhead.self⟩

theorem JoinedWithout.symm {d x y : Int} (h : JoinedWithout t d x y) : JoinedWithout t d y x :=
  avoiding_iff.mp (Search.Avoiding.symm symmetric (avoiding_iff.mpr h))

theorem Joined.symm {x y : Int} (h : Joined t x y) : Joined t y x := by
  induction h with
  | refl => exact .refl
  | tail _ hlink ih => exact (Relation.ReflTransGen.single (linked_symm t hlink)).trans ih

theorem without_or_side {d x y : Int} (hx : x ≠ d) (h : Joined t x y) :
    JoinedWithout t d x y ∨ ∃ m, t.Linked d m ∧ m ≠ d ∧ JoinedWithout t d m x := by
  have hjoined : Relation.ReflTransGen (fun a b => b ∈ t.adj a) x y :=
    Relation.ReflTransGen.mono (fun _ _ hab => (mem_adj t).mpr hab) _ _ h
  rcases Search.avoiding_or_neighbour hx hjoined with h | ⟨m, hm, h⟩
  · exact .inl (avoiding_iff.mp h)
  · exact .inr ⟨m, linked_symm t ((mem_adj t).mp hm), h.ne hx, (avoiding_iff.mp h).symm⟩

/-- Where a device cuts nothing off, network devices that are joined are joined without it. -/
theorem joined_of_nothing_cut_off (t : Topology) (d : Int) (hdevice : t.isDevice d = true) (hcut : t.cut_off_by d = [])
    (u v : Int) (hu : t.isDevice u = true) (hv : t.isDevice v = true) (hud : u ≠ d) (hvd : v ≠ d) (h : Joined t u v) :
    JoinedWithout t d u v := by
  have hback : Joined t v u := h.symm
  rcases without_or_side hud h with hdone | ⟨m, hm, hmd, hmu⟩
  · exact hdone
  rcases without_or_side hvd hback with hdone | ⟨n, hn, hnd, hnv⟩
  · exact hdone.symm
  obtain ⟨main, hmain, hmaind, hheavy⟩ := exists_main hm hmd
  -- Both sides hold a network device, so neither lies apart from the main one.
  have hmainm : JoinedWithout t d main m := by
    by_contra hapart
    have hmem := mem_cut_off hdevice hmain hmaind hheavy hm hmd hapart hmu hu hmu
    rw [hcut] at hmem
    cases hmem
  have hmainn : JoinedWithout t d main n := by
    by_contra hapart
    have hmem := mem_cut_off hdevice hmain hmaind hheavy hn hnd hapart hnv hv hnv
    rw [hcut] at hmem
    cases hmem
  have hmainu : JoinedWithout t d main u := hmainm.trans hmu
  exact hmainu.symm.trans (hmainn.trans hnv)

/-- Three switches in a ring -/
def ring : Topology :=
  Topology.of [⟨1, lit "sw1", lit "switch"⟩, ⟨2, lit "sw2", lit "switch"⟩, ⟨3, lit "sw3", lit "switch"⟩] []
    [⟨1, 2, lit "up", none⟩, ⟨2, 3, lit "up", none⟩, ⟨3, 1, lit "up", none⟩] [] []

theorem ring_joined : JoinedWithout ring 1 2 3 :=
  joined_of_nothing_cut_off ring 1 (by with_unfolding_all decide) (by with_unfolding_all decide) 2 3
    (by with_unfolding_all decide) (by with_unfolding_all decide) (by decide) (by decide)
    (.single (by with_unfolding_all decide))

end CutOff
