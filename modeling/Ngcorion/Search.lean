import Mathlib.Data.List.Chain
import Mathlib.Data.List.Sort
import Ngcorion.Dict

/-!
# Breadth-first search

A queue of nodes and a dictionary that says for every node met from which node it was met first. A node that does
not carry the search further is met but never queued. At the end the nodes met are those that a route reaches, and
following the dictionary back gives a shortest route.
-/
namespace Search

variable {α : Type*}

/-- A route from a start, listed in order; it goes on only from nodes that carry it and never enters a blocked one. -/
inductive Route (adj : α → List α) (carries : α → Bool) (blocked starts : List α) : List α → α → Prop where
  | here {x : α} (hx : x ∈ starts) : Route adj carries blocked starts [x] x
  | step {p : List α} {x y : α} (hp : Route adj carries blocked starts p x) (hcarries : carries x = true)
      (hadj : y ∈ adj x) (hy : y ∉ blocked) : Route adj carries blocked starts (p ++ [y]) y

structure State (α : Type*) where
  queue : List α
  came_from : List (α × Option α)

variable [DecidableEq α]

/-- The search before its first node; what is blocked counts as met. -/
def begin (blocked starts : List α) : State α :=
  ⟨starts, blocked.map (fun x => (x, none)) ++ starts.map (fun x => (x, none))⟩

def meet (carries : α → Bool) (node : α) (s : State α) (nxt : α) : State α :=
  if nxt ∈ Dict.keys s.came_from then s
  else ⟨if carries nxt then s.queue ++ [nxt] else s.queue, s.came_from ++ [(nxt, some node)]⟩

def step (adj : α → List α) (carries : α → Bool) (s : State α) : State α :=
  match s.queue with
  | [] => s
  | node :: rest => (adj node).foldl (meet carries node) ⟨rest, s.came_from⟩

def run (adj : α → List α) (carries : α → Bool) : Nat → State α → State α
  | 0, s => s
  | n + 1, s => run adj carries n (step adj carries s)

/-- The nodes from a start to `node`, read back along `came_from`. -/
def hops (came_from : List (α × Option α)) : Nat → α → List α
  | 0, _ => []
  | n + 1, node =>
    match Dict.get came_from node with
    | some (some prev) => hops came_from n prev ++ [node]
    | _ => [node]

/-- The neighbours that a scan meets for the first time. -/
def fresh (s : State α) (l : List α) : List α := l.filter (fun x => x ∉ Dict.keys s.came_from)

theorem mem_fresh {s : State α} {l : List α} {x : α} : x ∈ fresh s l ↔ x ∈ l ∧ x ∉ Dict.keys s.came_from := by
  simp [fresh]

theorem foldl_meet (carries : α → Bool) (node : α) {l : List α} (hl : l.Nodup) (s : State α) :
    l.foldl (meet carries node) s =
      ⟨s.queue ++ (fresh s l).filter carries, s.came_from ++ (fresh s l).map (fun x => (x, some node))⟩ := by
  induction l generalizing s with
  | nil => simp [fresh]
  | cons x l ih =>
    obtain ⟨hx, hl⟩ := List.nodup_cons.mp hl
    rw [List.foldl_cons, ih hl]
    by_cases hmet : x ∈ Dict.keys s.came_from
    · have hsame : meet carries node s x = s := if_pos hmet
      have hfresh : fresh s (x :: l) = fresh s l := by simp [fresh, hmet]
      rw [hsame, hfresh]
    · have hnew : meet carries node s x =
          ⟨if carries x then s.queue ++ [x] else s.queue, s.came_from ++ [(x, some node)]⟩ := if_neg hmet
      have hfresh : fresh s (x :: l) = x :: fresh s l := by simp [fresh, hmet]
      have hrest : fresh (meet carries node s x) l = fresh s l := by
        rw [hnew, fresh, fresh]
        refine List.filter_congr (fun y hy => ?_)
        have hne : y ≠ x := fun h => hx (h ▸ hy)
        simp [hne]
      rw [hrest, hfresh, hnew]
      cases hc : carries x <;> simp [hc]

section

variable (adj : α → List α) (carries : α → Bool) (blocked starts : List α)

/-- What holds between two steps. `depth` is the number of links from a start, along `came_from`. -/
structure Inv (s : State α) (depth : α → Nat) : Prop where
  nodup : (Dict.keys s.came_from).Nodup
  kept : ∀ x ∈ blocked, x ∈ Dict.keys s.came_from
  first : ∀ x ∈ starts, x ∈ Dict.keys s.came_from ∧ x ∉ blocked ∧ carries x = true ∧ depth x = 0
  root : ∀ x, (x, none) ∈ s.came_from → x ∈ blocked ∨ x ∈ starts
  link : ∀ x y, (y, some x) ∈ s.came_from → x ∈ Dict.keys s.came_from ∧ x ∉ blocked ∧ carries x = true ∧
    y ∈ adj x ∧ y ∉ blocked ∧ depth y = depth x + 1
  short : ∀ x ∈ Dict.keys s.came_from, x ∉ blocked → depth x < s.came_from.length
  queued : ∀ x ∈ s.queue, x ∈ Dict.keys s.came_from ∧ x ∉ blocked ∧ carries x = true
  sorted : s.queue.Pairwise (fun x y => depth x ≤ depth y)
  near : ∀ x ∈ Dict.keys s.came_from, x ∉ blocked → ∀ h ∈ s.queue, depth x ≤ depth h + 1
  done : ∀ x ∈ Dict.keys s.came_from, x ∉ blocked → carries x = true → x ∈ s.queue ∨
    ∀ y ∈ adj x, y ∉ blocked → y ∈ Dict.keys s.came_from ∧ depth y ≤ depth x + 1

/-- What `search_spec` asks of a graph: neighbours are listed once, and stay among `nodes`. -/
structure Graph (nodes : List α) : Prop where
  nodup : ∀ x, (adj x).Nodup
  closed : ∀ x ∈ nodes, ∀ y ∈ adj x, y ∈ nodes

/-- The starts are distinct, carry the search and are not blocked. -/
structure Starts : Prop where
  nodup : (blocked ++ starts).Nodup
  carries : ∀ x ∈ starts, carries x = true

variable {adj carries blocked starts}

omit [DecidableEq α] in
theorem keys_begin (blocked starts : List α) : Dict.keys (begin blocked starts).came_from = blocked ++ starts := by
  simp [begin, Dict.keys, Function.comp_def]

omit [DecidableEq α] in
theorem inv_begin (h : Starts carries blocked starts) :
    Inv adj carries blocked starts (begin blocked starts) (fun _ => 0) where
  nodup := keys_begin blocked starts ▸ h.nodup
  kept x hx := by rw [keys_begin]; exact List.mem_append_left _ hx
  first x hx := by
    refine ⟨by rw [keys_begin]; exact List.mem_append_right _ hx, fun hb => ?_, h.carries x hx, rfl⟩
    exact (List.disjoint_of_nodup_append h.nodup) hb hx
  root x hx := by simpa [begin] using hx
  link x y hxy := by simp [begin] at hxy
  short x hx _ := by
    rw [keys_begin, List.mem_append] at hx
    simp only [begin, List.length_append, List.length_map]
    rcases hx with hx | hx <;> have := List.length_pos_of_mem hx <;> omega
  queued x hx := by
    refine ⟨by rw [keys_begin]; exact List.mem_append_right _ hx, fun hb => ?_, h.carries x hx⟩
    exact (List.disjoint_of_nodup_append h.nodup) hb hx
  sorted := List.pairwise_of_forall (fun _ _ => Nat.le_refl 0)
  near _ _ _ _ _ := Nat.zero_le _
  done x hx hb _ := by
    rw [keys_begin, List.mem_append] at hx
    exact .inl (hx.resolve_left hb)

theorem step_eq {s : State α} {node : α} {rest : List α} (hq : s.queue = node :: rest) (hnode : (adj node).Nodup) :
    step adj carries s = ⟨rest ++ (fresh s (adj node)).filter carries,
      s.came_from ++ (fresh s (adj node)).map (fun x => (x, some node))⟩ := by
  rw [step, hq]
  exact foldl_meet carries node hnode ⟨rest, s.came_from⟩

/-- The depth of a node met by the step that takes `node`; the others keep theirs. -/
def deepen (s : State α) (node : α) (depth : α → Nat) (x : α) : Nat :=
  if x ∈ Dict.keys s.came_from then depth x else depth node + 1

theorem deepen_old {s : State α} {node x : α} {depth : α → Nat} (h : x ∈ Dict.keys s.came_from) :
    deepen s node depth x = depth x := if_pos h

theorem deepen_new {s : State α} {node x : α} {depth : α → Nat} (h : x ∉ Dict.keys s.came_from) :
    deepen s node depth x = depth node + 1 := if_neg h

theorem inv_step {s : State α} {depth : α → Nat} (hadj : ∀ x, (adj x).Nodup) (hinv : Inv adj carries blocked starts s depth)
    {node : α} {rest : List α} (hq : s.queue = node :: rest) :
    Inv adj carries blocked starts (step adj carries s) (deepen s node depth) := by
  have hnode : node ∈ Dict.keys s.came_from ∧ node ∉ blocked ∧ carries node = true := hinv.queued node (by simp [hq])
  have hdepth : deepen s node depth node = depth node := deepen_old hnode.1
  have hrest : ∀ x ∈ rest, x ∈ s.queue := fun x hx => by rw [hq]; exact List.mem_cons_of_mem _ hx
  have hleast : ∀ x ∈ s.queue, depth node ≤ depth x := by
    intro x hx
    rw [hq] at hx
    rcases List.mem_cons.mp hx with rfl | hx
    · exact Nat.le_refl _
    · exact (List.pairwise_cons.mp (hq ▸ hinv.sorted)).1 x hx
  rw [step_eq hq (hadj node)]
  have hkeys : Dict.keys (s.came_from ++ (fresh s (adj node)).map (fun x => (x, some node)))
      = Dict.keys s.came_from ++ fresh s (adj node) := by simp [Dict.keys, Function.comp_def]
  have hnew : ∀ x ∈ fresh s (adj node), x ∈ adj node ∧ x ∉ Dict.keys s.came_from ∧ x ∉ blocked := fun x hx =>
    ⟨(mem_fresh.mp hx).1, (mem_fresh.mp hx).2, fun hb => (mem_fresh.mp hx).2 (hinv.kept x hb)⟩
  -- Every node met so far lies at most one link below `node`.
  have hnear : ∀ x ∈ Dict.keys s.came_from ++ fresh s (adj node), x ∉ blocked →
      deepen s node depth x ≤ depth node + 1 := by
    intro x hx hb
    rcases List.mem_append.mp hx with hx | hx
    · rw [deepen_old hx]
      exact hinv.near x hx hb node (by simp [hq])
    · rw [deepen_new (hnew x hx).2.1]
  have hqueue : ∀ x ∈ rest ++ (fresh s (adj node)).filter carries,
      (x ∈ rest ∧ x ∈ Dict.keys s.came_from) ∨ (x ∈ fresh s (adj node) ∧ carries x = true) := by
    intro x hx
    rcases List.mem_append.mp hx with hx | hx
    · exact .inl ⟨hx, (hinv.queued x (hrest x hx)).1⟩
    · exact .inr (List.mem_filter.mp hx)
  constructor
  case nodup =>
    rw [hkeys]
    exact hinv.nodup.append ((hadj node).filter _) (fun x hx hf => (hnew x hf).2.1 hx)
  case kept => exact fun x hx => by rw [hkeys]; exact List.mem_append_left _ (hinv.kept x hx)
  case first =>
    intro x hx
    obtain ⟨hk, hb, hc, h0⟩ := hinv.first x hx
    exact ⟨by rw [hkeys]; exact List.mem_append_left _ hk, hb, hc, by rw [deepen_old hk, h0]⟩
  case root =>
    intro x hx
    rcases List.mem_append.mp hx with hx | hx
    · exact hinv.root x hx
    · simp at hx
  case link =>
    intro x y hxy
    rw [hkeys]
    rcases List.mem_append.mp hxy with hxy | hxy
    · obtain ⟨hx, hb, hc, ha, hyb, hd⟩ := hinv.link x y hxy
      have hy : y ∈ Dict.keys s.came_from := List.mem_map_of_mem hxy
      exact ⟨List.mem_append_left _ hx, hb, hc, ha, hyb, by rw [deepen_old hx, deepen_old hy, hd]⟩
    · simp only [List.mem_map, Prod.mk.injEq, Option.some.injEq] at hxy
      obtain ⟨y', hy', rfl, rfl⟩ := hxy
      exact ⟨List.mem_append_left _ hnode.1, hnode.2.1, hnode.2.2, (hnew _ hy').1, (hnew _ hy').2.2,
        by rw [hdepth, deepen_new (hnew _ hy').2.1]⟩
  case short =>
    intro x hx hb
    rw [hkeys] at hx
    simp only [List.length_append, List.length_map]
    rcases List.mem_append.mp hx with hx | hx
    · rw [deepen_old hx]
      exact Nat.lt_add_right _ (hinv.short x hx hb)
    · rw [deepen_new (hnew x hx).2.1]
      have := hinv.short node hnode.1 hnode.2.1
      have := List.length_pos_of_mem hx
      omega
  case queued =>
    intro x hx
    rw [hkeys]
    rcases hqueue x hx with ⟨hx, hk⟩ | ⟨hx, hc⟩
    · exact ⟨List.mem_append_left _ hk, (hinv.queued x (hrest x hx)).2⟩
    · exact ⟨List.mem_append_right _ hx, (hnew x hx).2.2, hc⟩
  case sorted =>
    rw [List.pairwise_append]
    refine ⟨?_, ?_, ?_⟩
    · refine List.Pairwise.imp_of_mem ?_ (List.pairwise_cons.mp (hq ▸ hinv.sorted)).2
      intro x y hx hy hle
      rwa [deepen_old (hinv.queued x (hrest x hx)).1, deepen_old (hinv.queued y (hrest y hy)).1]
    · refine List.pairwise_of_forall_mem_list (fun x hx y hy => ?_)
      rw [deepen_new (hnew x (List.mem_filter.mp hx).1).2.1, deepen_new (hnew y (List.mem_filter.mp hy).1).2.1]
    · intro x hx y hy
      rw [deepen_new (hnew y (List.mem_filter.mp hy).1).2.1]
      exact hnear x (List.mem_append_left _ (hinv.queued x (hrest x hx)).1) (hinv.queued x (hrest x hx)).2.1
  case near =>
    intro x hx hb y hy
    rw [hkeys] at hx
    refine (hnear x hx hb).trans ?_
    rcases hqueue y hy with ⟨hy, hk⟩ | ⟨hy, -⟩
    · rw [deepen_old hk]
      exact Nat.add_le_add_right (hleast y (hrest y hy)) 1
    · rw [deepen_new (hnew y hy).2.1]
      omega
  case done =>
    intro x hx hb hc
    rw [hkeys] at hx
    rcases List.mem_append.mp hx with hx | hx
    · by_cases hxn : x = node
      · refine .inr (fun y hy hyb => ?_)
        have hymet : y ∈ Dict.keys s.came_from ++ fresh s (adj node) := by
          by_cases hk : y ∈ Dict.keys s.came_from
          · exact List.mem_append_left _ hk
          · exact List.mem_append_right _ (mem_fresh.mpr ⟨hxn ▸ hy, hk⟩)
        rw [hkeys, hxn, hdepth]
        exact ⟨hymet, hnear y hymet hyb⟩
      · rcases hinv.done x hx hb hc with hqx | hall
        · rw [hq] at hqx
          exact .inl (List.mem_append_left _ (List.mem_of_ne_of_mem hxn hqx))
        · refine .inr (fun y hy hyb => ?_)
          obtain ⟨hk, hd⟩ := hall y hy hyb
          rw [hkeys, deepen_old hk, deepen_old hx]
          exact ⟨List.mem_append_left _ hk, hd⟩
    · exact .inl (List.mem_append_right _ (List.mem_filter.mpr ⟨hx, hc⟩))

theorem inv_run {s : State α} {depth : α → Nat} (hadj : ∀ x, (adj x).Nodup) (hinv : Inv adj carries blocked starts s depth)
    (n : Nat) : ∃ depth, Inv adj carries blocked starts (run adj carries n s) depth := by
  induction n generalizing s depth with
  | zero => exact ⟨depth, hinv⟩
  | succ n ih =>
    cases hq : s.queue with
    | nil => rw [run, step, hq]; exact ih hinv
    | cons node rest => exact ih (inv_step hadj hinv hq)

/-! ## The search ends -/

def unmet (nodes : List α) (s : State α) : List α := nodes.filter (fun x => x ∉ Dict.keys s.came_from)

/-- What is still to do: nodes that are not met, and nodes in the queue. -/
def left (nodes : List α) (s : State α) : Nat := (unmet nodes s).length + s.queue.length

theorem left_begin (nodes : List α) : left nodes (begin blocked starts) ≤ nodes.length + starts.length :=
  Nat.add_le_add_right (List.length_filter_le _ _) _

theorem left_step {nodes : List α} (h : Graph adj nodes) {s : State α} {node : α} {rest : List α}
    (hq : s.queue = node :: rest) (hnode : node ∈ nodes) : left nodes (step adj carries s) < left nodes s := by
  rw [step_eq hq (h.nodup node)]
  have hkeys : Dict.keys (s.came_from ++ (fresh s (adj node)).map (fun x => (x, some node)))
      = Dict.keys s.came_from ++ fresh s (adj node) := by simp [Dict.keys, Function.comp_def]
  have hsplit : unmet nodes ⟨rest ++ (fresh s (adj node)).filter carries,
      s.came_from ++ (fresh s (adj node)).map (fun x => (x, some node))⟩
      = (unmet nodes s).filter (fun x => !decide (x ∈ fresh s (adj node))) := by
    rw [unmet, unmet, List.filter_filter, hkeys]
    refine List.filter_congr (fun x _ => ?_)
    by_cases hx : x ∈ Dict.keys s.came_from <;> simp [hx]
  -- What is met now was among the nodes not met.
  have hmet : (fresh s (adj node)).length ≤ ((unmet nodes s).filter (fun x => decide (x ∈ fresh s (adj node)))).length := by
    refine (List.subperm_of_subset ((h.nodup node).filter _) (fun x hx => ?_)).length_le
    have hx' := mem_fresh.mp hx
    simp only [unmet, List.mem_filter, decide_eq_true_eq]
    exact ⟨⟨h.closed node hnode x hx'.1, hx'.2⟩, hx⟩
  have htotal := List.length_eq_length_filter_add (l := unmet nodes s) (fun x => decide (x ∈ fresh s (adj node)))
  have hcarried := List.length_filter_le carries (fresh s (adj node))
  simp only [left, hsplit, hq, List.length_append, List.length_cons]
  omega

theorem queue_step {nodes : List α} (h : Graph adj nodes) {s : State α} (hs : ∀ x ∈ s.queue, x ∈ nodes) :
    ∀ x ∈ (step adj carries s).queue, x ∈ nodes := by
  cases hq : s.queue with
  | nil => rw [step, hq]; simp [hq]
  | cons node rest =>
    rw [step_eq hq (h.nodup node)]
    intro x hx
    rcases List.mem_append.mp hx with hx | hx
    · exact hs x (hq ▸ List.mem_cons_of_mem _ hx)
    · exact h.closed node (hs node (by simp [hq])) x (mem_fresh.mp (List.mem_filter.mp hx).1).1

theorem run_idle {s : State α} (hq : s.queue = []) (n : Nat) : run adj carries n s = s := by
  induction n with
  | zero => rfl
  | succ n ih => rw [run, step, hq, ih]

theorem queue_run {nodes : List α} (h : Graph adj nodes) (n : Nat) {s : State α} (hs : ∀ x ∈ s.queue, x ∈ nodes)
    (hleft : left nodes s ≤ n) : (run adj carries n s).queue = [] := by
  induction n generalizing s with
  | zero => exact List.length_eq_zero_iff.mp (Nat.le_zero.mp ((Nat.le_add_left _ _).trans hleft))
  | succ n ih =>
    cases hq : s.queue with
    | nil => rw [run_idle hq, hq]
    | cons node rest =>
      have hless : left nodes (step adj carries s) < left nodes s := left_step h hq (hs node (by simp [hq]))
      exact ih (queue_step h hs) (by omega)

/-! ## What it finds -/

/-- A search that has run to its end, with enough steps for every node. -/
structure Searched (adj : α → List α) (carries : α → Bool) (blocked starts nodes : List α) (s : State α) : Prop where
  graph : Graph adj nodes
  start : Starts carries blocked starts
  among : ∀ x ∈ starts, x ∈ nodes
  result : s = run adj carries (nodes.length + starts.length) (begin blocked starts)

variable {nodes : List α} {s : State α}

theorem Searched.inv (h : Searched adj carries blocked starts nodes s) :
    s.queue = [] ∧ ∃ depth, Inv adj carries blocked starts s depth := by
  rw [h.result]
  exact ⟨queue_run h.graph _ h.among (left_begin nodes), inv_run h.graph.nodup (inv_begin h.start) _⟩

omit [DecidableEq α] in
/-- A route meets nothing that is not met in the end, and not sooner. -/
theorem Inv.met_of_route {depth : α → Nat} (h : Inv adj carries blocked starts s depth) (hq : s.queue = [])
    {p : List α} {x : α} (hp : Route adj carries blocked starts p x) :
    x ∈ Dict.keys s.came_from ∧ x ∉ blocked ∧ depth x + 1 ≤ p.length := by
  induction hp with
  | here hx =>
    obtain ⟨hk, hb, -, h0⟩ := h.first _ hx
    exact ⟨hk, hb, by simp [h0]⟩
  | step _ hcarries hadj hy ih =>
    obtain ⟨hk, hb, hle⟩ := ih
    rcases h.done _ hk hb hcarries with hqueue | hall
    · simp [hq] at hqueue
    · obtain ⟨hky, hdy⟩ := hall _ hadj hy
      refine ⟨hky, hy, ?_⟩
      rw [List.length_append, List.length_singleton]
      omega

theorem Inv.get_of_mem {depth : α → Nat} (h : Inv adj carries blocked starts s depth) {x : α}
    (hx : x ∈ Dict.keys s.came_from) (hb : x ∉ blocked) :
    Dict.get s.came_from x = some none ∧ x ∈ starts ∧ depth x = 0 ∨
      ∃ prev, Dict.get s.came_from x = some (some prev) ∧ x ∉ starts ∧ prev ∈ Dict.keys s.came_from ∧ prev ∉ blocked ∧
        carries prev = true ∧ x ∈ adj prev ∧ depth x = depth prev + 1 := by
  obtain ⟨⟨x', prev⟩, hmem, rfl⟩ := List.mem_map.mp hx
  have hget := Dict.get_of_mem _ h.nodup _ _ hmem
  cases prev with
  | none =>
    have hstart := (h.root _ hmem).resolve_left hb
    exact .inl ⟨hget, hstart, (h.first _ hstart).2.2.2⟩
  | some prev =>
    obtain ⟨hk, hpb, hc, ha, -, hd⟩ := h.link _ _ hmem
    refine .inr ⟨prev, hget, fun hstart => ?_, hk, hpb, hc, ha, hd⟩
    have h0 : depth x' = 0 := (h.first _ hstart).2.2.2
    exact absurd (hd.symm.trans h0) (Nat.succ_ne_zero _)

theorem Inv.route_hops {depth : α → Nat} (h : Inv adj carries blocked starts s depth) (n : Nat) {x : α}
    (hx : x ∈ Dict.keys s.came_from) (hb : x ∉ blocked) (hn : depth x < n) :
    Route adj carries blocked starts (hops s.came_from n x) x ∧ (hops s.came_from n x).length = depth x + 1 := by
  induction n generalizing x with
  | zero => exact absurd hn (Nat.not_lt_zero _)
  | succ n ih =>
    rcases h.get_of_mem hx hb with ⟨hget, hstart, h0⟩ | ⟨prev, hget, -, hk, hpb, hc, ha, hd⟩
    · rw [hops, hget, h0]
      exact ⟨.here hstart, rfl⟩
    · obtain ⟨hroute, hlength⟩ := ih hk hpb (by omega)
      rw [hops, hget]
      exact ⟨.step hroute hc ha hb, by simp [hlength, hd]⟩

/-- The nodes met are those a route reaches. -/
theorem Searched.met_iff (h : Searched adj carries blocked starts nodes s)
    {x : α} : (x ∈ Dict.keys s.came_from ∧ x ∉ blocked) ↔ ∃ p, Route adj carries blocked starts p x := by
  obtain ⟨hq, depth, hinv⟩ := h.inv
  constructor
  · rintro ⟨hx, hb⟩
    exact ⟨_, (hinv.route_hops _ hx hb (hinv.short x hx hb)).1⟩
  · rintro ⟨p, hp⟩
    obtain ⟨hk, hb, -⟩ := hinv.met_of_route hq hp
    exact ⟨hk, hb⟩

/-- Reading back `came_from` gives a route, and none is shorter. -/
theorem Searched.hops_shortest (h : Searched adj carries blocked starts nodes s) {x : α}
    (hx : x ∈ Dict.keys s.came_from) (hb : x ∉ blocked) :
    Route adj carries blocked starts (hops s.came_from s.came_from.length x) x ∧
      ∀ p, Route adj carries blocked starts p x → (hops s.came_from s.came_from.length x).length ≤ p.length := by
  obtain ⟨hq, depth, hinv⟩ := h.inv
  obtain ⟨hroute, hlength⟩ := hinv.route_hops _ hx hb (hinv.short x hx hb)
  refine ⟨hroute, fun p hp => ?_⟩
  rw [hlength]
  exact (hinv.met_of_route hq hp).2.2

/-- Only a start was met from nowhere. -/
theorem Searched.prev_none (h : Searched adj carries blocked starts nodes s) {x : α}
    (hx : x ∈ Dict.keys s.came_from) (hb : x ∉ blocked) : Dict.get s.came_from x = some none ↔ x ∈ starts := by
  obtain ⟨-, depth, hinv⟩ := h.inv
  rcases hinv.get_of_mem hx hb with ⟨hget, hstart, -⟩ | ⟨prev, hget, hstart, -⟩ <;> simp [hget, hstart]

theorem keys_run (carries : α → Bool) (n : Nat) (s : State α) (hadj : ∀ x, (adj x).Nodup) :
    ∃ met, Dict.keys (run adj carries n s).came_from = Dict.keys s.came_from ++ met := by
  induction n generalizing s with
  | zero => exact ⟨[], by simp [run]⟩
  | succ n ih =>
    obtain ⟨met, hmet⟩ := ih (step adj carries s)
    cases hq : s.queue with
    | nil =>
      rw [step, hq] at hmet
      exact ⟨met, by rw [run, step, hq, hmet]⟩
    | cons node rest =>
      refine ⟨fresh s (adj node) ++ met, ?_⟩
      rw [run, hmet, step_eq hq (hadj node)]
      simp [Dict.keys, Function.comp_def]

end

/-! ## What is left without a node -/

/-- Joined by links that neither leave nor enter `d`. -/
def Avoiding (adj : α → List α) (d : α) : α → α → Prop :=
  Relation.ReflTransGen (fun a b => b ∈ adj a ∧ a ≠ d ∧ b ≠ d)

def Symmetric (adj : α → List α) : Prop := ∀ x y, y ∈ adj x → x ∈ adj y

section

variable {adj : α → List α}

omit [DecidableEq α] in
theorem Avoiding.symm (hsymm : Symmetric adj) {d x y : α} (h : Avoiding adj d x y) : Avoiding adj d y x := by
  induction h with
  | refl => exact .refl
  | tail _ hlink ih => exact (Relation.ReflTransGen.single ⟨hsymm _ _ hlink.1, hlink.2.2, hlink.2.1⟩).trans ih

omit [DecidableEq α] in
theorem Avoiding.ne {d x y : α} (h : Avoiding adj d x y) (hx : x ≠ d) : y ≠ d := by
  cases h with
  | refl => exact hx
  | tail _ hlink => exact hlink.2.2

/-- What is joined stays joined without `d`, or leads to a neighbour of `d`. -/
theorem avoiding_or_neighbour {d x y : α} (hx : x ≠ d) (h : Relation.ReflTransGen (fun a b => b ∈ adj a) x y) :
    Avoiding adj d x y ∨ ∃ m, d ∈ adj m ∧ Avoiding adj d x m := by
  induction h with
  | refl => exact .inl .refl
  | @tail b c _ hlink ih =>
    rcases ih with hb | hm
    · by_cases hc : c = d
      · exact .inr ⟨b, hc ▸ hlink, hb⟩
      · exact .inl (hb.tail ⟨hlink, hb.ne hx, hc⟩)
    · exact .inr hm

/-- The search from one start among what is not yet seen: what it meets is `seen`, then the part of the start. -/
def flood (adj : α → List α) (fuel : Nat) (seen : List α) (start : α) : List α :=
  Dict.keys (run adj (fun _ => true) fuel (begin seen [start])).came_from

/-- One start after another, the parts that are left, and what is seen. -/
def partsFrom (adj : α → List α) (fuel : Nat) (state : List (List α) × List α) (start : α) :
    List (List α) × List α :=
  if start ∈ state.2 then state
  else (state.1 ++ [(flood adj fuel state.2 start).drop state.2.length], flood adj fuel state.2 start)

/-- A list of the nodes joined to `m` without `d`. -/
structure IsPart (adj : α → List α) (d m : α) (part : List α) : Prop where
  nodup : part.Nodup
  mem_iff : ∀ x, x ∈ part ↔ Avoiding adj d m x

/-- After the starts `done`: the parts are those of starts, apart from each other, and make up what is seen. -/
structure Parts (adj : α → List α) (d : α) (done : List α) (parts : List (List α)) (seen : List α) : Prop where
  nodup : seen.Nodup
  seen_iff : ∀ x, x ∈ seen ↔ x = d ∨ ∃ part ∈ parts, x ∈ part
  part : ∀ part ∈ parts, ∃ m ∈ done, m ≠ d ∧ IsPart adj d m part
  apart : parts.Pairwise List.Disjoint
  all : ∀ m ∈ done, m ≠ d → ∃ part ∈ parts, m ∈ part

theorem flood_part {nodes : List α} (h : Graph adj nodes) (hsymm : Symmetric adj) {d : α} {done : List α}
    {parts : List (List α)} {seen : List α} (hparts : Parts adj d done parts seen) {start : α} (hstart : start ∈ nodes)
    (hnew : start ∉ seen) : ∃ part, flood adj (nodes.length + 1) seen start = seen ++ part ∧ (seen ++ part).Nodup ∧
      IsPart adj d start part := by
  have hd : start ≠ d := fun hd => hnew ((hparts.seen_iff _).mpr (.inl hd))
  have hsearch : Searched adj (fun _ => true) seen [start] nodes
      (run adj (fun _ => true) (nodes.length + 1) (begin seen [start])) := by
    refine ⟨h, ⟨hparts.nodup.append (List.nodup_singleton _) (fun x hx hs => ?_), fun _ _ => rfl⟩, fun x hx => ?_, rfl⟩
    · exact hnew (List.mem_singleton.mp hs ▸ hx)
    · rwa [List.mem_singleton.mp hx]
  obtain ⟨-, depth, hinv⟩ := hsearch.inv
  obtain ⟨met, hmet⟩ := keys_run (fun _ => true) (nodes.length + 1) (begin seen [start]) h.nodup
  rw [keys_begin, List.append_assoc] at hmet
  have hnodup : (seen ++ ([start] ++ met)).Nodup := hmet ▸ hinv.nodup
  have hmem : ∀ x, x ∈ [start] ++ met ↔ ∃ p, Route adj (fun _ => true) seen [start] p x := by
    intro x
    rw [← hsearch.met_iff, hmet]
    constructor
    · exact fun hx => ⟨List.mem_append_right _ hx, fun hs => List.disjoint_of_nodup_append hnodup hs hx⟩
    · exact fun ⟨hx, hs⟩ => (List.mem_append.mp hx).resolve_left hs
  refine ⟨[start] ++ met, hmet, hnodup, (List.nodup_append.mp hnodup).2.1, fun x => ?_⟩
  constructor
  · intro hx
    obtain ⟨p, hp⟩ := (hmem x).mp hx
    induction hp with
    | here hfirst => rw [List.mem_singleton.mp hfirst]; exact .refl
    | @step p x y hp _ hadj hy ih =>
      have hjoined := ih ((hmem x).mpr ⟨p, hp⟩)
      exact hjoined.tail ⟨hadj, hjoined.ne hd, fun hyd => hy ((hparts.seen_iff y).mpr (.inl hyd))⟩
  · intro hx
    refine (hmem x).mpr ?_
    induction hx with
    | refl => exact ⟨_, .here (List.mem_singleton.mpr rfl)⟩
    | @tail b c _ hlink ih =>
      obtain ⟨p, hp⟩ := ih
      refine ⟨_, .step hp rfl hlink.1 (fun hc => ?_)⟩
      -- A part that is seen holds every neighbour but `d`.
      obtain ⟨part, hpart, hcpart⟩ := ((hparts.seen_iff c).mp hc).resolve_left hlink.2.2
      obtain ⟨m, -, -, hm⟩ := hparts.part part hpart
      have hb : b ∈ part := (hm.mem_iff b).mpr
        (((hm.mem_iff c).mp hcpart).tail ⟨hsymm _ _ hlink.1, hlink.2.2, hlink.2.1⟩)
      have hbseen : b ∈ seen := (hparts.seen_iff b).mpr (.inr ⟨part, hpart, hb⟩)
      exact List.disjoint_of_nodup_append hnodup hbseen ((hmem b).mpr ⟨p, hp⟩)

theorem parts_step {nodes : List α} (h : Graph adj nodes) (hsymm : Symmetric adj) {d : α} {done : List α}
    {parts : List (List α)} {seen : List α} (hparts : Parts adj d done parts seen) {start : α} (hstart : start ∈ nodes) :
    Parts adj d (done ++ [start]) (partsFrom adj (nodes.length + 1) (parts, seen) start).1
      (partsFrom adj (nodes.length + 1) (parts, seen) start).2 := by
  have hold : ∀ part ∈ parts, ∃ m ∈ done ++ [start], m ≠ d ∧ IsPart adj d m part := fun part hpart => by
    obtain ⟨m, hm, hrest⟩ := hparts.part part hpart
    exact ⟨m, List.mem_append_left _ hm, hrest⟩
  by_cases hseen : start ∈ seen
  · rw [partsFrom, if_pos hseen]
    refine ⟨hparts.nodup, hparts.seen_iff, hold, hparts.apart, fun m hm hmd => ?_⟩
    rcases List.mem_append.mp hm with hm | hm
    · exact hparts.all m hm hmd
    · rw [List.mem_singleton.mp hm] at hmd ⊢
      exact ((hparts.seen_iff start).mp hseen).resolve_left hmd
  · obtain ⟨part, hflood, hnodup, hpart⟩ := flood_part h hsymm hparts hstart hseen
    have hd : start ≠ d := fun hd => hseen ((hparts.seen_iff _).mpr (.inl hd))
    rw [partsFrom, if_neg hseen, hflood, List.drop_left]
    refine ⟨hnodup, fun x => ?_, fun q hq => ?_, ?_, fun m hm hmd => ?_⟩
    · simp only [List.mem_append, hparts.seen_iff x, List.mem_singleton, or_and_right, exists_or, exists_eq_left]
      exact or_assoc
    · rcases List.mem_append.mp hq with hq | hq
      · exact hold q hq
      · rw [List.mem_singleton.mp hq]
        exact ⟨start, by simp, hd, hpart⟩
    · refine List.pairwise_append.mpr ⟨hparts.apart, List.pairwise_singleton _ _, fun q hq r hr x hxq hxr => ?_⟩
      rw [List.mem_singleton.mp hr] at hxr
      exact List.disjoint_of_nodup_append hnodup ((hparts.seen_iff x).mpr (.inr ⟨q, hq, hxq⟩)) hxr
    · rcases List.mem_append.mp hm with hm | hm
      · obtain ⟨q, hq, hmq⟩ := hparts.all m hm hmd
        exact ⟨q, List.mem_append_left _ hq, hmq⟩
      · rw [List.mem_singleton.mp hm]
        exact ⟨part, by simp, (hpart.mem_iff start).mpr .refl⟩

/-- The parts that are left without `d`, from the starts one after another. -/
theorem parts_run {nodes : List α} (h : Graph adj nodes) (hsymm : Symmetric adj) {d : α} (l : List α)
    (hl : ∀ x ∈ l, x ∈ nodes) {done : List α} {state : List (List α) × List α}
    (hparts : Parts adj d done state.1 state.2) :
    Parts adj d (done ++ l) (l.foldl (partsFrom adj (nodes.length + 1)) state).1
      (l.foldl (partsFrom adj (nodes.length + 1)) state).2 := by
  induction l generalizing done state with
  | nil => simpa using hparts
  | cons x l ih =>
    have hstep := parts_step h hsymm hparts (hl x List.mem_cons_self)
    simpa using ih (fun y hy => hl y (List.mem_cons_of_mem _ hy)) hstep

omit [DecidableEq α] in
theorem parts_begin (adj : α → List α) (d : α) : Parts adj d [] [] [d] where
  nodup := List.nodup_singleton d
  seen_iff x := by simp
  part _ h := absurd h List.not_mem_nil
  apart := .nil
  all _ h := absurd h List.not_mem_nil

end

end Search
