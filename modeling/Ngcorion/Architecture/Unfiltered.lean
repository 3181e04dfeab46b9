import Mathlib.Data.List.Chain
import Ngcorion.Architecture.SafeTopology

/-!
# What the paths without a firewall say

A host of a target place is reported exactly when an unfiltered path leads to it from a source place, with a shortest
such path. The firewalls of the Internet edge are those that stand first on a path from the Internet.
-/
namespace Unfiltered

open Text SafeTopology

variable (t : Topology)

/-- Nodes one link after another, from a node that `from` describes. -/
structure Walk (source : Int → Prop) (p : List Int) : Prop where
  source : ∃ a rest, p = a :: rest ∧ a ∈ t.nodes ∧ source a
  links : p.IsChain t.Linked

/-- A walk from one of the places with no firewall on it. -/
structure UnfilteredPath (sources : List Place) (p : List Int) (x : Int) : Prop where
  walk : Walk t (fun a => ∃ place ∈ sources, t.place a = some place) p
  last : p.getLast? = some x
  free : ∀ a ∈ p, t.cls a ≠ .firewall

/-- The hosts that an unfiltered path may be reported for: storage devices, or hosts of a target place. -/
def Target (targets : List Place) (storage : Bool) (x : Int) : Prop :=
  if storage then t.is_storage x = true else ∃ place ∈ targets, t.place x = some place

variable {t}

theorem searched {starts : List Int} (hnodup : starts.Nodup) (hcarries : ∀ x ∈ starts, t.cls x ≠ .firewall)
    (hnodes : ∀ x ∈ starts, x ∈ t.nodes) :
    Search.Searched t.adj (carriesOn t) [] starts t.nodes (t.search starts) where
  graph := graph t
  start := ⟨hnodup, fun x hx => by simpa [carriesOn] using hcarries x hx⟩
  among := hnodes
  result := rfl

/-- A route of the search is a walk whose nodes before the last are no firewalls. -/
theorem route_iff {starts p : List Int} {x : Int} :
    Search.Route t.adj (carriesOn t) [] starts p x ↔
      (∃ a ∈ starts, p.head? = some a) ∧ p.IsChain t.Linked ∧ p.getLast? = some x ∧
        ∀ a ∈ p.dropLast, t.cls a ≠ .firewall := by
  constructor
  · intro h
    induction h with
    | here hx => exact ⟨⟨_, hx, rfl⟩, .singleton _, rfl, by simp⟩
    | @step p x y _ hcarries hadj _ ih =>
      obtain ⟨⟨a, ha, hhead⟩, hchain, hlast, hfree⟩ := ih
      have hne : p ≠ [] := fun h => by simp [h] at hlast
      refine ⟨⟨a, ha, by rw [List.head?_append, hhead, Option.some_or]⟩, ?_, by simp, ?_⟩
      · refine hchain.append (.singleton _) (fun u hu v hv => ?_)
        rw [hlast, Option.mem_some_iff] at hu
        rw [List.head?_singleton, Option.mem_some_iff] at hv
        rw [← hu, ← hv]
        exact (mem_adj t).mp hadj
      · intro b hb
        rw [List.dropLast_concat, ← List.dropLast_append_getLast? x hlast] at hb
        rcases List.mem_append.mp hb with hb | hb
        · exact hfree b hb
        · rw [List.mem_singleton.mp hb]
          simpa [carriesOn] using hcarries
  · induction p using List.reverseRecOn generalizing x with
    | nil => rintro ⟨⟨_, _, h⟩, _⟩; cases h
    | append_singleton q y ih =>
      rintro ⟨⟨a, ha, hhead⟩, hchain, hlast, hfree⟩
      rw [List.getLast?_concat, Option.some.injEq] at hlast
      subst hlast
      rw [List.dropLast_concat] at hfree
      cases hq : q.getLast? with
      | none =>
        rw [List.getLast?_eq_none_iff.mp hq] at hhead ⊢
        cases hhead
        exact .here ha
      | some z =>
        have hz : z ∈ q := List.mem_of_getLast? hq
        have hne : q ≠ [] := List.ne_nil_of_mem hz
        rw [List.isChain_append] at hchain
        refine .step (ih ⟨⟨a, ha, ?_⟩, hchain.1, hq, fun b hb => hfree b (List.dropLast_subset _ hb)⟩) ?_ ?_ (by simp)
        · rwa [List.head?_append_of_ne_nil _ hne] at hhead
        · simpa [carriesOn] using hfree z hz
        · exact (mem_adj t).mpr (hchain.2.2 z hq y rfl)

/-- A walk stays among the nodes. -/
theorem route_node {starts p : List Int} {x : Int} (hnodes : ∀ x ∈ starts, x ∈ t.nodes)
    (h : Search.Route t.adj (carriesOn t) [] starts p x) : x ∈ t.nodes := by
  cases h with
  | here hx => exact hnodes _ hx
  | step _ _ hadj _ => exact (linked_nodes t ((mem_adj t).mp hadj)).2

/-! ## Unfiltered paths -/

theorem mem_places {places : List Place} {o : Option Place} :
    o ∈ places.map some ↔ ∃ place ∈ places, o = some place := by
  simp only [List.mem_map, eq_comm]

theorem mem_start {sources : List Place} {x : Int} :
    x ∈ start t sources ↔ x ∈ t.nodes ∧ (∃ place ∈ sources, t.place x = some place) ∧ t.cls x ≠ .firewall := by
  simp only [start, List.mem_insertionSort, List.mem_filter, mem_places, decide_eq_true_eq]

theorem nodup_start (sources : List Place) : (start t sources).Nodup :=
  ((List.perm_insertionSort _ _).nodup_iff).mpr (t.nodup.filter _)

theorem searched_start (sources : List Place) :
    Search.Searched t.adj (carriesOn t) [] (start t sources) t.nodes (t.search (start t sources)) :=
  searched (nodup_start sources) (fun _ hx => (mem_start.mp hx).2.2) (fun _ hx => (mem_start.mp hx).1)

theorem unfilteredPath_iff {sources : List Place} {p : List Int} {x : Int} (hx : t.cls x ≠ .firewall) :
    UnfilteredPath t sources p x ↔ Search.Route t.adj (carriesOn t) [] (start t sources) p x := by
  rw [route_iff]
  constructor
  · intro ⟨⟨⟨a, rest, hp, hnode, hplace⟩, hchain⟩, hlast, hfree⟩
    refine ⟨⟨a, mem_start.mpr ⟨hnode, hplace, hfree a (by simp [hp])⟩, by simp [hp]⟩, hchain, hlast, fun b hb => ?_⟩
    exact hfree b (List.dropLast_subset _ hb)
  · intro ⟨⟨a, ha, hhead⟩, hchain, hlast, hfree⟩
    obtain ⟨rest, hp⟩ := List.head?_eq_some_iff.mp hhead
    obtain ⟨hnode, hplace, -⟩ := mem_start.mp ha
    refine ⟨⟨⟨a, rest, hp, hnode, hplace⟩, hchain⟩, hlast, fun b hb => ?_⟩
    rw [← List.dropLast_append_getLast? x hlast] at hb
    rcases List.mem_append.mp hb with hb | hb
    · exact hfree b hb
    · rwa [List.mem_singleton.mp hb]

theorem get_filterMap {β : Type} {d : List (Int × Option Int)} (hd : (Dict.keys d).Nodup)
    (f : Int × Option Int → Option (Int × β)) (hf : ∀ e y, f e = some y → y.1 = e.1) {x : Int} :
    x ∈ Dict.keys (d.filterMap f) ↔ ∃ prev, Dict.get d x = some prev ∧ (f (x, prev)).isSome = true := by
  simp only [Dict.keys, List.mem_map, List.mem_filterMap]
  constructor
  · rintro ⟨y, ⟨⟨x', prev⟩, hmem, hy⟩, rfl⟩
    have hx' := hf _ _ hy
    rw [hx']
    exact ⟨prev, Dict.get_of_mem _ hd _ _ hmem, by rw [hy]; rfl⟩
  · rintro ⟨prev, hget, hsome⟩
    obtain ⟨y, hy⟩ := Option.isSome_iff_exists.mp hsome
    exact ⟨y, ⟨_, Dict.mem_of_get _ _ _ hget, hy⟩, hf _ _ hy⟩

theorem elsewhere_iff {targets : List Place} {storage : Bool} {x : Int} :
    t.elsewhere targets storage x = true ↔ ¬ Target t targets storage x := by
  cases storage <;> simp [Topology.elsewhere, Target, mem_places]

theorem entry_eq {came_from : List (Int × Option Int)} {targets : List Place} {storage : Bool} {x : Int}
    {prev : Option Int} {y : Int × Str} : t.entry came_from targets storage (x, prev) = some y ↔
      prev ≠ none ∧ t.cls x ∈ hostClasses ∧ Target t targets storage x ∧
        y = (x, pathText t (Search.hops came_from came_from.length x)) := by
  rw [Topology.entry]
  split
  · rename_i h
    simp only [reduceCtorEq, false_iff]
    rintro ⟨hprev, hcls, -⟩
    exact h.elim hprev (fun hc => hc hcls)
  · rename_i h
    rw [not_or, not_not] at h
    split
    · rename_i hskip
      simp only [reduceCtorEq, false_iff]
      rw [elsewhere_iff] at hskip
      exact fun hall => hskip hall.2.2.1
    · rename_i hkept
      rw [elsewhere_iff, not_not] at hkept
      simp only [Option.some.injEq, ne_eq, h.1, not_false_eq_true, h.2, hkept, true_and, eq_comm]

theorem host_free {x : Int} (h : t.cls x ∈ hostClasses) : t.cls x ≠ .firewall := by
  intro hf
  rw [hf] at h
  revert h
  decide

/-- Which hosts `unfiltered_paths` reports, and with which path. -/
theorem unfiltered_paths_exact (t : Topology) (sources targets : List Place) (storage : Bool) (x : Int) :
    (x ∈ Dict.keys (t.unfiltered_paths sources targets storage) ↔
      t.cls x ∈ hostClasses ∧ Target t targets storage x ∧ (∀ place ∈ sources, t.place x ≠ some place) ∧
        ∃ p, UnfilteredPath t sources p x) ∧
    ∀ text, (x, text) ∈ t.unfiltered_paths sources targets storage →
      ∃ p, UnfilteredPath t sources p x ∧ text = pathText t p ∧
        ∀ q, UnfilteredPath t sources q x → p.length ≤ q.length := by
  have hsearch := searched_start (t := t) sources
  obtain ⟨-, depth, hinv⟩ := hsearch.inv
  constructor
  · rw [Topology.unfiltered_paths, get_filterMap hinv.nodup _ (fun e y hy => by rw [(entry_eq.mp hy).2.2.2])]
    constructor
    · rintro ⟨prev, hget, hsome⟩
      obtain ⟨y, hy⟩ := Option.isSome_iff_exists.mp hsome
      obtain ⟨hprev, hcls, htarget, -⟩ := entry_eq.mp hy
      have hmet : x ∈ Dict.keys (t.search (start t sources)).came_from :=
        List.mem_map_of_mem (Dict.mem_of_get _ _ _ hget)
      obtain ⟨p, hp⟩ := hsearch.met_iff.mp ⟨hmet, List.not_mem_nil⟩
      refine ⟨hcls, htarget, fun place hplace h => ?_, p, (unfilteredPath_iff (host_free hcls)).mpr hp⟩
      have hstart := (hsearch.prev_none hmet List.not_mem_nil).not.mp (by rw [hget]; simpa using hprev)
      have hnode : x ∈ t.nodes := route_node (fun _ hx => (mem_start.mp hx).1) hp
      exact hstart (mem_start.mpr ⟨hnode, ⟨place, hplace, h⟩, host_free hcls⟩)
    · rintro ⟨hcls, htarget, hplace, p, hp⟩
      have hroute := (unfilteredPath_iff (host_free hcls)).mp hp
      obtain ⟨hmet, -⟩ := hsearch.met_iff.mpr ⟨p, hroute⟩
      have hprev : Dict.get (t.search (start t sources)).came_from x ≠ some none := by
        rw [ne_eq, hsearch.prev_none hmet List.not_mem_nil]
        intro hstart
        obtain ⟨-, ⟨place, hmem, heq⟩, -⟩ := mem_start.mp hstart
        exact hplace place hmem heq
      cases hget : Dict.get (t.search (start t sources)).came_from x with
      | none => exact absurd hmet ((Dict.get_eq_none _ _).mp hget)
      | some prev =>
        refine ⟨prev, rfl, Option.isSome_iff_exists.mpr ⟨_, entry_eq.mpr ⟨fun h => hprev ?_, hcls, htarget, rfl⟩⟩⟩
        rw [hget, h]
  · intro text hmem
    obtain ⟨⟨x', prev⟩, hmet, hentry⟩ := List.mem_filterMap.mp hmem
    obtain ⟨-, hcls, -, hy⟩ := entry_eq.mp hentry
    cases hy
    obtain ⟨hroute, hshort⟩ := hsearch.hops_shortest (List.mem_map_of_mem hmet) (List.not_mem_nil)
    refine ⟨_, (unfilteredPath_iff (host_free hcls)).mpr hroute, rfl, fun q hq => ?_⟩
    exact hshort q ((unfilteredPath_iff (host_free hcls)).mp hq)

/-! ## The Internet edge -/

/-- Where a walk from the Internet begins. -/
def FromInternet (t : Topology) (a : Int) : Prop := t.outside a = true ∧ t.cls a ≠ .firewall

theorem mem_outsideStart {x : Int} : x ∈ outsideStart t ↔ x ∈ t.nodes ∧ FromInternet t x :=
  List.mem_filter.trans (and_congr_right fun _ => decide_eq_true_iff)

/-- The edge firewalls are those a walk from the Internet meets as its first firewall. -/
theorem edge_firewalls_exact (t : Topology) (f : Int) :
    f ∈ t.edge_firewalls ↔ ∃ p, Walk t (FromInternet t) p ∧ p.find? (fun x => t.cls x = .firewall) = some f := by
  have hsearch : Search.Searched t.adj (carriesOn t) [] (outsideStart t) t.nodes (t.search (outsideStart t)) :=
    searched (t.nodup.filter _) (fun _ hx => (mem_outsideStart.mp hx).2.2) (fun _ hx => (mem_outsideStart.mp hx).1)
  rw [Topology.edge_firewalls, List.mem_filter, decide_eq_true_eq]
  constructor
  · rintro ⟨hmet, hfirewall⟩
    obtain ⟨p, hp⟩ := hsearch.met_iff.mp ⟨hmet, List.not_mem_nil⟩
    obtain ⟨⟨a, ha, hhead⟩, hchain, hlast, hfree⟩ := route_iff.mp hp
    obtain ⟨rest, rfl⟩ := List.head?_eq_some_iff.mp hhead
    obtain ⟨hnode, hsource⟩ := mem_outsideStart.mp ha
    refine ⟨a :: rest, ⟨⟨a, rest, rfl, hnode, hsource⟩, hchain⟩, ?_⟩
    rw [List.find?_eq_some_iff_append]
    have hsplit := (List.dropLast_append_getLast? f hlast).symm
    refine ⟨decide_eq_true hfirewall, (a :: rest).dropLast, [], hsplit, fun b hb => ?_⟩
    simpa using hfree b hb
  · rintro ⟨p, ⟨⟨a, rest, rfl, hnode, hsource⟩, hchain⟩, hfind⟩
    obtain ⟨hfirewall, before, after, hp, hfree⟩ := List.find?_eq_some_iff_append.mp hfind
    rw [decide_eq_true_eq] at hfirewall
    refine ⟨(hsearch.met_iff.mpr ⟨before ++ [f], route_iff.mpr ⟨⟨a, ?_, ?_⟩, ?_, by simp, ?_⟩⟩).1, hfirewall⟩
    · exact mem_outsideStart.mpr ⟨hnode, hsource⟩
    · cases before with
      | nil =>
        cases hp
        exact absurd hfirewall hsource.2
      | cons b before =>
        cases hp
        rfl
    · exact hchain.prefix ⟨after, by simp [hp]⟩
    · intro b hb
      rw [List.dropLast_concat] at hb
      simpa using hfree b hb

end Unfiltered
