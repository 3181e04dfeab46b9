import Ngcorion.Advisories.OsvRecords
import Ngcorion.Advisories.DebVersions
import Mathlib.Data.List.Induction

/-!
# The intervals of an OSV range

A range tells by its events which versions are affected. `_intervals` turns the events into intervals, and a version is
compared with the ends of each.
-/
namespace OsvRanges

open Text OsvRecords PaddedOrder DebVersions

/-! ## Reading an interval -/

section
variable (compare : Str → Str → Except PyError Int)

/-- A text that is there and not empty -/
def given (text : Option Str) : Option Str := text.filter fun s => s ≠ []

/-- `introduced and compare(family, version, introduced) < 0` -/
def isBefore (version : Str) (introduced : Option Str) : Except PyError Bool :=
  match given introduced with
  | some x => (compare version x).map fun r => r < 0
  | none => .ok false

def _affected (version : Str) (i : Interval) : Except PyError Bool := do
  if ← isBefore compare version i.introduced then return false
  match given i.fixed, given i.lastAffected with
  | some x, _ => (compare version x).map fun r => r < 0
  | none, some x => (compare version x).map fun r => r ≤ 0
  | none, none => return true

/-- What `_evaluate` says about a version and a row -/
inductive State where
  | opened | unfixed | fixed
  deriving DecidableEq

/-- The body of the loop of `_evaluate`; none where the row is passed over -/
def state (version : Str) (i : Interval) : Except PyError (Option State) := do
  if ← isBefore compare version i.introduced then return none
  match given i.fixed, given i.lastAffected with
  | some x, _ => (compare version x).map fun r => some (if r < 0 then .opened else .fixed)
  | none, some x => (compare version x).map fun r => if 0 < r then none else some .unfixed
  | none, none => return some .unfixed

end

/-- Both readings say the same. -/
theorem affected_eq_state (compare : Str → Str → Except PyError Int) (version : Str) (i : Interval) :
    _affected compare version i = (state compare version i).map fun s => s = some .opened || s = some .unfixed := by
  unfold _affected state
  cases isBefore compare version i.introduced with
  | error e => rfl
  | ok passed =>
    cases passed with
    | true => rfl
    | false =>
      cases given i.fixed with
      | some x =>
        dsimp only [bind, Except.bind]
        cases compare version x with
        | error e => rfl
        | ok r => by_cases h : r < 0 <;> simp [Except.map, h]
      | none =>
        cases given i.lastAffected with
        | some x =>
          dsimp only [bind, Except.bind]
          cases compare version x with
          | error e => rfl
          | ok r => by_cases h : 0 < r <;> simp [Except.map, h, not_lt.mp, not_le.mpr]
        | none => rfl

/-! ## Ranges -/

/-- An event with one key -/
inductive Mark where
  | introduced (v : Str)
  | fixed (v : Str)
  | lastAffected (v : Str)

def Mark.version : Mark → Str
  | .introduced v | .fixed v | .lastAffected v => v

def Mark.event : Mark → Event
  | .introduced v => ⟨some v, none, none⟩
  | .fixed v => ⟨none, some v, none⟩
  | .lastAffected v => ⟨none, none, some v⟩

def range (marks : List Mark) : Range := ⟨lit "ECOSYSTEM", marks.map Mark.event⟩

section
variable (cmp : Str → Str → Ordering)

/-- The comparison that an order gives -/
def byOrder (a b : Str) : Except PyError Int := .ok (sign (cmp a b))

/-- One event of the evaluation that OSV describes -/
def scan (v : Str) (affected : Bool) : Mark → Bool
  | .introduced x => if (cmp x v).isLE then true else affected
  | .fixed x => if (cmp x v).isLE then false else affected
  | .lastAffected x => if cmp x v = .lt then false else affected

/-- Whether a version is affected, as OSV evaluates the events -/
def evaluate (marks : List Mark) (v : Str) : Bool := marks.foldl (scan cmp v) false

def Sorted (marks : List Mark) : Prop := marks.Pairwise fun a b => (cmp a.version b.version).isLE = true

/-- A text fills a column and fits it. -/
def FitsColumn (x : Str) : Prop := x ≠ [] ∧ x.length ≤ 160

def Fits (marks : List Mark) : Prop := ∀ m ∈ marks, FitsColumn m.version

/-- A version lies in one of the intervals exactly when OSV says that it is affected. -/
def Kept (marks : List Mark) : Prop :=
  ∀ v, (∃ i ∈ intervals [range marks], _affected (byOrder cmp) v i = .ok true) ↔ evaluate cmp marks v = true

/-- What is lost when an interval that is open is begun again: nothing, where the versions from the first beginning on are in
an interval that was closed before. -/
def Restarts (marks : List Mark) : Prop :=
  ∀ p a x q, marks = p ++ Mark.introduced a :: .introduced x :: q → ∀ v, (cmp a v).isLE = true → cmp v x = .lt →
    ∃ p₁ s l p₂, p = p₁ ++ Mark.introduced s :: .lastAffected l :: p₂ ∧ (cmp v l).isLE = true

/-- A last affected version is not the fixed version of a later event, unless it is introduced again after it. -/
def StaysAffected (marks : List Mark) : Prop :=
  ∀ p s l q₁ y q₂, marks = p ++ Mark.introduced s :: .lastAffected l :: (q₁ ++ Mark.fixed y :: q₂) → cmp y l = .eq →
    ∃ z, Mark.introduced z ∈ q₂ ∧ cmp z l = .eq

/-! ## Spans -/

inductive End where
  | fixed (v : Str)
  | lastAffected (v : Str)
  | never

/-- An interval by its versions -/
structure Span where
  start : Str
  ends : End

def startOf (v : Str) : Option Str := if v = lit "0" then none else some (v.take 160)

def Span.interval (s : Span) : Interval :=
  match s.ends with
  | .fixed v => ⟨startOf s.start, some (v.take 160), none⟩
  | .lastAffected v => ⟨startOf s.start, none, some (v.take 160)⟩
  | .never => ⟨startOf s.start, none, none⟩

def Span.covers (v : Str) (s : Span) : Bool :=
  (cmp s.start v).isLE && match s.ends with
    | .fixed x => cmp v x = .lt
    | .lastAffected x => (cmp v x).isLE
    | .never => true

/-- The spans that the events close, from the start of the open one -/
def closed : Option Str → List Mark → List Span
  | _, [] => []
  | _, .introduced x :: ms => closed (some x) ms
  | none, .fixed _ :: ms | none, .lastAffected _ :: ms => closed none ms
  | some s, .fixed x :: ms => ⟨s, .fixed x⟩ :: closed none ms
  | some s, .lastAffected x :: ms => ⟨s, .lastAffected x⟩ :: closed none ms

/-- The start of the span that is open after the events -/
def openAfter : Option Str → List Mark → Option Str
  | start, [] => start
  | _, .introduced x :: ms => openAfter (some x) ms
  | _, .fixed _ :: ms | _, .lastAffected _ :: ms => openAfter none ms

def spans (start : Option Str) (marks : List Mark) : List Span :=
  closed start marks ++ (openAfter start marks).toList.map fun s => ⟨s, .never⟩

end

theorem openAfter_append (start : Option Str) (p q : List Mark) : openAfter start (p ++ q) = openAfter (openAfter start p) q := by
  fun_induction openAfter start p with
  | case1 => rfl
  | case2 _ x ms ih => exact ih
  | case3 _ x ms ih => exact ih
  | case4 _ x ms ih => exact ih

theorem closed_append (start : Option Str) (p q : List Mark) :
    closed start (p ++ q) = closed start p ++ closed (openAfter start p) q := by
  induction p generalizing start with
  | nil => rfl
  | cons m p ih =>
    cases m with
    | introduced x => exact ih (some x)
    | fixed x =>
      cases start with
      | none => exact ih none
      | some s => exact congrArg _ (ih none)
    | lastAffected x =>
      cases start with
      | none => exact ih none
      | some s => exact congrArg _ (ih none)

theorem spans_append (start : Option Str) (p q : List Mark) :
    spans start (p ++ q) = closed start p ++ spans (openAfter start p) q := by
  rw [spans, closed_append, openAfter_append, List.append_assoc]
  rfl

theorem foldl_event (marks : List Mark) (start : Option Str) (out : List Interval) :
    (marks.map Mark.event).foldl event (start.map startOf, out) =
      ((openAfter start marks).map startOf, out ++ (closed start marks).map Span.interval) := by
  induction marks generalizing start out with
  | nil => exact Prod.ext rfl (List.append_nil out).symm
  | cons m marks ih =>
    cases m with
    | introduced x => exact ih (some x) out
    | fixed x =>
      cases start with
      | none => exact ih none out
      | some s =>
        rw [List.map_cons, List.foldl_cons, closed, List.map_cons, List.append_cons]
        exact ih none _
    | lastAffected x =>
      cases start with
      | none => exact ih none out
      | some s =>
        rw [List.map_cons, List.foldl_cons, closed, List.map_cons, List.append_cons]
        exact ih none _

/-- `_intervals` finds the spans. -/
theorem intervals_eq (marks : List Mark) : intervals [range marks] = (spans none marks).map Span.interval := by
  have hfold := foldl_event marks none []
  rw [Option.map_none, List.nil_append] at hfold
  unfold intervals range
  rw [List.flatMap_cons, List.flatMap_nil, List.append_nil, if_neg (fun h => h rfl), hfold, spans, List.map_append]
  cases openAfter none marks with
  | none => exact (List.append_nil _).symm
  | some s => rfl

/-! ## Versions and spans -/

theorem byOrder_neg (cmp : Str → Str → Ordering) (a b : Str) :
    (byOrder cmp a b).map (fun r => decide (r < 0)) = .ok (decide (cmp a b = .lt)) := by
  rw [byOrder, Except.map]
  cases cmp a b <;> rfl

theorem byOrder_nonpos (cmp : Str → Str → Ordering) (a b : Str) :
    (byOrder cmp a b).map (fun r => decide (r ≤ 0)) = .ok (cmp a b).isLE := by
  rw [byOrder, Except.map]
  cases cmp a b <;> rfl

theorem given_take {x : Str} (h : FitsColumn x) : given (some (x.take 160)) = some x := by
  rw [List.take_of_length_le h.2]
  exact Option.filter_some_pos (decide_eq_true h.1)

def UpTo (cmp : Str → Str → Ordering) (v : Str) (marks : List Mark) : Prop := ∀ m ∈ marks, (cmp m.version v).isLE = true

def Above (cmp : Str → Str → Ordering) (v : Str) (marks : List Mark) : Prop := ∀ m ∈ marks, cmp v m.version = .lt

theorem scan_stays {cmp : Str → Str → Ordering} {v : Str} {r : List Mark} (h : ∀ z, Mark.introduced z ∈ r → (cmp z v).isLE = false) :
    r.foldl (scan cmp v) false = false := by
  induction r with
  | nil => rfl
  | cons m r ih =>
    have hrest := ih fun z hz => h z (List.mem_cons_of_mem _ hz)
    have hstep : scan cmp v false m = false := by
      cases m with
      | introduced x => exact if_neg (Bool.eq_false_iff.mp (h x List.mem_cons_self))
      | fixed x => exact ite_self false
      | lastAffected x => exact ite_self false
    rw [List.foldl_cons, hstep, hrest]

/-- Events of one version leave it affected unless it is fixed and not introduced again. -/
theorem scan_level {cmp : Str → Str → Ordering} {v : Str} {r : List Mark} (hlevel : ∀ m ∈ r, cmp m.version v = .eq) (affected : Bool)
    (h : r.foldl (scan cmp v) affected = false) : affected = false ∨
      ∃ q₁ y q₂, r = q₁ ++ Mark.fixed y :: q₂ ∧ ∀ z, Mark.introduced z ∉ q₂ := by
  induction r using List.reverseRecOn with
  | nil => exact .inl h
  | append_singleton r m ih =>
    have hm : cmp m.version v = .eq := hlevel m (List.mem_append_right _ List.mem_cons_self)
    rw [List.foldl_append, List.foldl_cons, List.foldl_nil] at h
    have hrest := ih fun x hx => hlevel x (List.mem_append_left _ hx)
    cases m with
    | introduced x =>
      have hle : (cmp x v).isLE = true := by
        rw [show cmp x v = .eq from hm]
        rfl
      rw [scan, if_pos hle] at h
      cases h
    | fixed x => exact .inr ⟨r, x, [], rfl, fun z => List.not_mem_nil⟩
    | lastAffected x =>
      have hnot : cmp x v ≠ .lt := fun hlt => by rw [show cmp x v = .eq from hm] at hlt; cases hlt
      rw [scan, if_neg hnot] at h
      refine (hrest h).imp_right ?_
      rintro ⟨q₁, y, q₂, rfl, hnone⟩
      refine ⟨q₁, y, q₂ ++ [Mark.lastAffected x], by simp, fun z hz => ?_⟩
      cases List.mem_append.mp hz with
      | inl hold => exact hnone z hold
      | inr hnew => cases List.mem_singleton.mp hnew

theorem covered_cut (cmp : Str → Str → Ordering) (low high : List Mark) (v : Str) : (spans none (low ++ high)).any (Span.covers cmp v) = true ↔
    (closed none low).any (Span.covers cmp v) = true ∨ (spans (openAfter none low) high).any (Span.covers cmp v) = true := by
  rw [spans_append, List.any_append, Bool.or_eq_true]

section
variable {cmp : Str → Str → Ordering} [Std.TransCmp cmp] {v : Str} {start : Option Str} {marks p q : List Mark}

theorem lt_iff_not_isLE (a b : Str) : cmp a b = .lt ↔ (cmp b a).isLE = false := by
  have hswap : cmp b a = (cmp a b).swap := Std.OrientedCmp.eq_swap
  rw [hswap]
  cases cmp a b <;> decide

theorem isBefore_start (hzero : ∀ v, (cmp (lit "0") v).isLE = true) {x : Str} (h : FitsColumn x) :
    isBefore (byOrder cmp) v (startOf x) = .ok (!(cmp x v).isLE) := by
  unfold isBefore startOf
  by_cases hx : x = lit "0"
  · rw [if_pos hx, hx, hzero v]
    rfl
  · rw [if_neg hx, given_take h]
    dsimp only
    rw [byOrder_neg]
    congr 1
    rw [Bool.eq_iff_iff, decide_eq_true_eq, lt_iff_not_isLE, Bool.not_eq_true']

theorem affected_span (hzero : ∀ v, (cmp (lit "0") v).isLE = true) {s : Span} (hstart : FitsColumn s.start)
    (hends : ∀ x, s.ends = .fixed x ∨ s.ends = .lastAffected x → FitsColumn x) :
    _affected (byOrder cmp) v s.interval = .ok (s.covers cmp v) := by
  obtain ⟨x, ends⟩ := s
  unfold Span.covers
  cases ends with
  | fixed y =>
    rw [_affected, Span.interval, isBefore_start hzero hstart, given_take (hends y (.inl rfl))]
    dsimp only [bind, Except.bind]
    rw [byOrder_neg]
    cases (cmp x v).isLE <;> rfl
  | lastAffected y =>
    rw [_affected, Span.interval, isBefore_start hzero hstart, given_take (hends y (.inr rfl))]
    dsimp only [bind, Except.bind, given, Option.filter]
    rw [byOrder_nonpos]
    cases (cmp x v).isLE <;> rfl
  | never =>
    rw [_affected, Span.interval, isBefore_start hzero hstart]
    dsimp only [bind, Except.bind]
    cases (cmp x v).isLE <;> rfl

theorem Fits.tail {m : Mark} (h : Fits (m :: marks)) : Fits marks := fun x hx => h x (List.mem_cons_of_mem _ hx)

theorem Fits.first {x : Str} (h : Fits (.introduced x :: marks)) : ∀ y, some x = some y → FitsColumn y :=
  fun _ hy => Option.some.inj hy ▸ h _ List.mem_cons_self

theorem fits_none : ∀ x, (none : Option Str) = some x → FitsColumn x := fun _ hx => nomatch hx

/-- The ends of the spans are versions of the events. -/
theorem mem_closed {s : Span} (hstart : ∀ x, start = some x → FitsColumn x) (hfits : Fits marks) (h : s ∈ closed start marks) :
    FitsColumn s.start ∧ ∀ x, s.ends = .fixed x ∨ s.ends = .lastAffected x → FitsColumn x := by
  fun_induction closed start marks with
  | case1 => cases h
  | case2 _ x ms ih => exact ih hfits.first hfits.tail h
  | case3 x ms ih => exact ih fits_none hfits.tail h
  | case4 x ms ih => exact ih fits_none hfits.tail h
  | case5 first x ms ih =>
    cases List.mem_cons.mp h with
    | inl hhere =>
      rw [hhere]
      refine ⟨hstart first rfl, fun y hy => ?_⟩
      obtain hy | hy := hy
      · exact End.fixed.inj hy ▸ hfits _ List.mem_cons_self
      · cases hy
    | inr hrest => exact ih fits_none hfits.tail hrest
  | case6 first x ms ih =>
    cases List.mem_cons.mp h with
    | inl hhere =>
      rw [hhere]
      refine ⟨hstart first rfl, fun y hy => ?_⟩
      obtain hy | hy := hy
      · cases hy
      · exact End.lastAffected.inj hy ▸ hfits _ List.mem_cons_self
    | inr hrest => exact ih fits_none hfits.tail hrest

theorem fits_openAfter {x : Str} (hstart : ∀ x, start = some x → FitsColumn x) (hfits : Fits marks)
    (h : openAfter start marks = some x) : FitsColumn x := by
  fun_induction openAfter start marks with
  | case1 => exact hstart x h
  | case2 _ y ms ih => exact ih hfits.first hfits.tail h
  | case3 _ y ms ih => exact ih fits_none hfits.tail h
  | case4 _ y ms ih => exact ih fits_none hfits.tail h

/-- The intervals have the versions of the spans. -/
theorem kept_iff (hzero : ∀ v, (cmp (lit "0") v).isLE = true) (hfits : Fits marks) :
    Kept cmp marks ↔ ∀ v, (spans none marks).any (Span.covers cmp v) = true ↔ evaluate cmp marks v = true := by
  have hspans : ∀ s ∈ spans none marks, ∀ v, _affected (byOrder cmp) v s.interval = .ok (s.covers cmp v) := by
    intro s hs v
    cases List.mem_append.mp hs with
    | inl hclosed =>
      obtain ⟨hstart, hends⟩ := mem_closed (fun x hx => by cases hx) hfits hclosed
      exact affected_span hzero hstart hends
    | inr hopen =>
      obtain ⟨x, hx, rfl⟩ := List.mem_map.mp hopen
      have hstart : FitsColumn x := fits_openAfter (fun x hx => by cases hx) hfits (Option.mem_toList.mp hx)
      exact affected_span hzero hstart fun y hy => by simp at hy
  unfold Kept
  refine forall_congr' fun v => ?_
  rw [intervals_eq, List.any_eq_true]
  refine iff_congr ⟨?_, ?_⟩ Iff.rfl
  · rintro ⟨i, hi, haffected⟩
    obtain ⟨s, hs, rfl⟩ := List.mem_map.mp hi
    rw [hspans s hs v, Except.ok.injEq] at haffected
    exact ⟨s, hs, haffected⟩
  · rintro ⟨s, hs, hcovers⟩
    exact ⟨s.interval, List.mem_map_of_mem hs, by rw [hspans s hs v, hcovers]⟩

/-! ## The events up to a version and above it -/

theorem eq_of_isLE {a b : Str} (hab : (cmp a b).isLE = true) (hba : (cmp b a).isLE = true) : cmp a b = .eq := by
  have hswap : cmp b a = (cmp a b).swap := Std.OrientedCmp.eq_swap
  rw [hswap] at hba
  cases h : cmp a b with
  | lt =>
    rw [h] at hba
    cases hba
  | eq => rfl
  | gt =>
    rw [h] at hab
    cases hab

/-- Sorted events are cut at every version. -/
theorem cut (hsorted : Sorted cmp marks) (v : Str) : ∃ low high, marks = low ++ high ∧ UpTo cmp v low ∧ Above cmp v high := by
  induction marks with
  | nil => exact ⟨[], [], rfl, List.forall_mem_nil _, List.forall_mem_nil _⟩
  | cons m marks ih =>
    obtain ⟨hhead, htail⟩ := List.pairwise_cons.mp hsorted
    cases hm : (cmp m.version v).isLE with
    | true =>
      obtain ⟨low, high, rfl, hlow, hhigh⟩ := ih htail
      exact ⟨m :: low, high, rfl, List.forall_mem_cons.mpr ⟨hm, hlow⟩, hhigh⟩
    | false =>
      have hlt : cmp v m.version = .lt := (lt_iff_not_isLE v m.version).mpr hm
      refine ⟨[], m :: marks, rfl, List.forall_mem_nil _, List.forall_mem_cons.mpr ⟨hlt, fun x hx => ?_⟩⟩
      exact Std.TransCmp.lt_of_lt_of_isLE hlt (hhead x hx)

theorem not_lt_of_lt {a b : Str} (h : cmp a b = .lt) : cmp b a ≠ .lt := by
  have hswap : cmp b a = (cmp a b).swap := Std.OrientedCmp.eq_swap
  rw [hswap, h]
  decide

theorem scan_above (h : Above cmp v q) (affected : Bool) : q.foldl (scan cmp v) affected = affected := by
  induction q generalizing affected with
  | nil => rfl
  | cons m q ih =>
    obtain ⟨hm, hq⟩ := List.forall_mem_cons.mp h
    rw [List.foldl_cons, ih hq]
    have hnot : (cmp m.version v).isLE = false := (lt_iff_not_isLE v m.version).mp hm
    cases m with
    | introduced x => exact if_neg (Bool.eq_false_iff.mp hnot)
    | fixed x => exact if_neg (Bool.eq_false_iff.mp hnot)
    | lastAffected x => exact if_neg (not_lt_of_lt hm)

/-- A span that begins above a version does not cover it. -/
theorem covers_above {s : Span} (h : cmp v s.start = .lt) : s.covers cmp v = false := by
  rw [Span.covers, (lt_iff_not_isLE v s.start).mp h, Bool.false_and]

theorem spans_above (h : Above cmp v q) (hstart : ∀ x, start = some x → cmp v x = .lt) :
    (spans start q).any (Span.covers cmp v) = false := by
  induction q generalizing start with
  | nil =>
    cases start with
    | none => rfl
    | some x => exact (Bool.or_false _).trans (covers_above (hstart x rfl))
  | cons m q ih =>
    obtain ⟨hm, hq⟩ := List.forall_mem_cons.mp h
    have hnone : (spans none q).any (Span.covers cmp v) = false := ih hq fun x hx => nomatch hx
    cases m with
    | introduced x => exact ih hq fun y hy => Option.some.inj hy ▸ hm
    | fixed x =>
      cases start with
      | none => exact hnone
      | some s => exact Bool.or_eq_false_iff.mpr ⟨covers_above (hstart s rfl), hnone⟩
    | lastAffected x =>
      cases start with
      | none => exact hnone
      | some s => exact Bool.or_eq_false_iff.mpr ⟨covers_above (hstart s rfl), hnone⟩

/-- The span that is open covers the version, unless it is begun again above it. -/
theorem spans_open (h : Above cmp v q) {x : Str} (hx : (cmp x v).isLE = true) :
    (spans (some x) q).any (Span.covers cmp v) = true ↔ ∀ y q', q ≠ .introduced y :: q' := by
  cases q with
  | nil => exact ⟨fun _ _ _ hq => (nomatch hq), fun _ => Bool.or_eq_true_iff.mpr (.inl (Bool.and_eq_true_iff.mpr ⟨hx, rfl⟩))⟩
  | cons m q =>
    obtain ⟨hm, hq⟩ := List.forall_mem_cons.mp h
    cases m with
    | introduced y =>
      have hstart : ∀ z, some y = some z → cmp v z = .lt := fun z hz => Option.some.inj hz ▸ hm
      have hfalse : (spans (some y) q).any (Span.covers cmp v) = false := spans_above hq hstart
      refine ⟨fun hany => ?_, fun h => (h y q rfl).elim⟩
      have hcovers : (spans (some y) q).any (Span.covers cmp v) = true := hany
      rw [hfalse] at hcovers
      cases hcovers
    | fixed y =>
      refine ⟨fun _ _ _ hq => (nomatch hq), fun _ => Bool.or_eq_true_iff.mpr (.inl (Bool.and_eq_true_iff.mpr ⟨hx, ?_⟩))⟩
      exact decide_eq_true hm
    | lastAffected y =>
      refine ⟨fun _ _ _ hq => (nomatch hq), fun _ => Bool.or_eq_true_iff.mpr (.inl (Bool.and_eq_true_iff.mpr ⟨hx, ?_⟩))⟩
      exact congrArg Ordering.isLE hm

/-- What is open was begun by the last event. -/
theorem openAfter_some {x : Str} (h : openAfter none p = some x) : ∃ p', p = p' ++ [Mark.introduced x] := by
  induction p using List.reverseRecOn with
  | nil => cases h
  | append_singleton p m _ =>
    rw [openAfter_append] at h
    cases m with
    | introduced y =>
      cases h
      exact ⟨p, rfl⟩
    | fixed y => cases h
    | lastAffected y => cases h

theorem adjacent_snoc {p₁ p₂ : List Mark} {m : Mark} {s l : Str}
    (h : p ++ [m] = p₁ ++ Mark.introduced s :: .lastAffected l :: p₂) :
    (∃ p₂', p₂ = p₂' ++ [m] ∧ p = p₁ ++ Mark.introduced s :: .lastAffected l :: p₂') ∨
      m = .lastAffected l ∧ p = p₁ ++ [Mark.introduced s] := by
  obtain rfl | ⟨p₂', m', rfl⟩ := List.eq_nil_or_concat p₂
  · rw [List.append_cons p₁] at h
    obtain ⟨hp, hm⟩ := List.append_inj' h rfl
    exact .inr ⟨List.head_eq_of_cons_eq hm, hp⟩
  · rw [List.concat_eq_append, ← List.cons_append, ← List.cons_append, ← List.append_assoc] at h
    obtain ⟨hp, hm⟩ := List.append_inj' h rfl
    cases hm
    exact .inl ⟨p₂', List.concat_eq_append, hp⟩

/-- The spans that are closed up to a version and cover it end with it as last affected version. -/
theorem closed_covers (hsorted : Sorted cmp p) (hupTo : UpTo cmp v p) : (closed none p).any (Span.covers cmp v) = true ↔
    ∃ p₁ s l p₂, p = p₁ ++ Mark.introduced s :: .lastAffected l :: p₂ ∧ (cmp v l).isLE = true := by
  induction p using List.reverseRecOn with
  | nil => exact ⟨fun h => (nomatch h), fun ⟨p₁, s, l, p₂, hp, _⟩ => by simp at hp⟩
  | append_singleton p m ih =>
    have hlower : UpTo cmp v p := fun x hx => hupTo x (List.mem_append_left _ hx)
    have hm : (cmp m.version v).isLE = true := hupTo m (List.mem_append_right _ List.mem_cons_self)
    have hbefore := ih (hsorted.sublist (List.sublist_append_left p [m])) hlower
    rw [closed_append, List.any_append, Bool.or_eq_true, hbefore]
    constructor
    · rintro (⟨p₁, s, l, p₂, rfl, hl⟩ | hlast)
      · exact ⟨p₁, s, l, p₂ ++ [m], by simp, hl⟩
      · cases hopen : openAfter none p with
        | none =>
          rw [hopen] at hlast
          cases m <;> cases hlast
        | some t =>
          obtain ⟨p', rfl⟩ := openAfter_some hopen
          rw [hopen] at hlast
          cases m with
          | introduced x => cases hlast
          | fixed x =>
            have hcovers : (cmp t v).isLE = true ∧ decide (cmp v x = .lt) = true := by
              simpa [closed, Span.covers] using hlast
            have hnot := (lt_iff_not_isLE v x).mp (of_decide_eq_true hcovers.2)
            rw [show (cmp x v).isLE = true from hm] at hnot
            cases hnot
          | lastAffected x =>
            have hcovers : (cmp t v).isLE = true ∧ (cmp v x).isLE = true := by
              simpa [closed, Span.covers] using hlast
            exact ⟨p', t, x, [], by simp, hcovers.2⟩
    · rintro ⟨p₁, s, l, p₂, hp, hl⟩
      obtain ⟨p₂', rfl, rfl⟩ | ⟨rfl, rfl⟩ := adjacent_snoc hp
      · exact .inl ⟨p₁, s, l, p₂', rfl, hl⟩
      · right
        have hs : (cmp s v).isLE = true := hlower (.introduced s) (List.mem_append_right _ List.mem_cons_self)
        rw [openAfter_append]
        simp [openAfter, closed, Span.covers, hs, hl]

/-- A version that is affected by the events up to it is in a span that is closed or open. -/
theorem scan_true (hupTo : UpTo cmp v p) (hsorted : Sorted cmp p) (h : p.foldl (scan cmp v) false = true) :
    (closed none p).any (Span.covers cmp v) = true ∨ (openAfter none p).isSome = true := by
  induction p using List.reverseRecOn with
  | nil => cases h
  | append_singleton p m ih =>
    have hm : (cmp m.version v).isLE = true := hupTo m (List.mem_append_right _ List.mem_cons_self)
    rw [List.foldl_append, List.foldl_cons, List.foldl_nil] at h
    cases m with
    | introduced x =>
      right
      rw [openAfter_append]
      rfl
    | fixed x =>
      rw [scan, if_pos (show (cmp x v).isLE = true from hm)] at h
      cases h
    | lastAffected x =>
      left
      have hnot : cmp x v ≠ .lt := by
        intro hlt
        rw [scan, if_pos hlt] at h
        cases h
      rw [scan, if_neg hnot] at h
      rw [closed_append, List.any_append, Bool.or_eq_true]
      have hlower : UpTo cmp v p := fun y hy => hupTo y (List.mem_append_left _ hy)
      refine (ih hlower (hsorted.sublist (List.sublist_append_left p _)) h).imp_right fun hsome => ?_
      obtain ⟨t, ht⟩ := Option.isSome_iff_exists.mp hsome
      obtain ⟨p', rfl⟩ := openAfter_some ht
      have hstart : (cmp t v).isLE = true := hlower (.introduced t) (List.mem_append_right _ List.mem_cons_self)
      have hend : (cmp v x).isLE = true := Bool.of_not_eq_false fun hle => hnot ((lt_iff_not_isLE x v).mpr hle)
      rw [ht]
      simp [closed, Span.covers, hstart, hend]

/-- The events up to a version leave it affected where a closed span covers it, unless a later event fixes it. -/
theorem scan_closed {p₁ p₂ : List Mark} {s l : Str} (hsorted : Sorted cmp (p₁ ++ Mark.introduced s :: .lastAffected l :: p₂))
    (hupTo : UpTo cmp v (p₁ ++ Mark.introduced s :: .lastAffected l :: p₂)) (hl : (cmp v l).isLE = true) :
    (p₁ ++ Mark.introduced s :: .lastAffected l :: p₂).foldl (scan cmp v) false = p₂.foldl (scan cmp v) true ∧
      ∀ m ∈ p₂, cmp m.version v = .eq := by
  have hs : (cmp s v).isLE = true := hupTo (.introduced s) (List.mem_append_right _ List.mem_cons_self)
  have hnot : cmp l v ≠ .lt := by
    intro hlt
    rw [(lt_iff_not_isLE l v).mp hlt] at hl
    cases hl
  constructor
  · rw [List.foldl_append, List.foldl_cons, List.foldl_cons]
    congr 1
    exact (if_neg hnot).trans (if_pos hs)
  · intro m hm
    have htail := (List.pairwise_append.mp hsorted).2.1
    have hlast := (List.pairwise_cons.mp (List.pairwise_cons.mp htail).2).1 m hm
    have hle : (cmp m.version v).isLE = true :=
      hupTo m (List.mem_append_right _ (List.mem_cons_of_mem _ (List.mem_cons_of_mem _ hm)))
    exact eq_of_isLE hle (Std.TransCmp.isLE_trans hl hlast)

/-! ## The claim -/

variable {low high : List Mark}

theorem evaluate_cut (hhigh : Above cmp v high) : evaluate cmp (low ++ high) v = low.foldl (scan cmp v) false := by
  rw [evaluate, List.foldl_append, scan_above hhigh]

/-- What is covered is affected. -/
theorem affected_of_covered (hsorted : Sorted cmp (low ++ high)) (hlow : UpTo cmp v low) (hhigh : Above cmp v high)
    (hstays : StaysAffected cmp (low ++ high)) (h : (spans none (low ++ high)).any (Span.covers cmp v) = true) :
    low.foldl (scan cmp v) false = true := by
  have hsortedLow : Sorted cmp low := hsorted.sublist (List.sublist_append_left _ _)
  obtain hclosed | hopen := (covered_cut cmp _ _ v).mp h
  · obtain ⟨p₁, s, l, p₂, rfl, hl⟩ := (closed_covers hsortedLow hlow).mp hclosed
    obtain ⟨hfold, hlevel⟩ := scan_closed hsortedLow hlow hl
    rw [hfold]
    refine Bool.of_not_eq_false fun hfalse => ?_
    obtain ⟨q₁, y, q₂, rfl, hnone⟩ := (scan_level hlevel true hfalse).resolve_left (by decide)
    have hlv : (cmp l v).isLE = true :=
      hlow (.lastAffected l) (List.mem_append_right _ (List.mem_cons_of_mem _ List.mem_cons_self))
    have hyv : cmp y v = .eq := hlevel (.fixed y) (List.mem_append_right _ List.mem_cons_self)
    have hvy : cmp v y = .eq := Std.OrientedCmp.eq_comm.mp hyv
    have hyl : cmp y l = .eq := by
      refine eq_of_isLE (Std.TransCmp.isLE_trans ?_ hl) (Std.TransCmp.isLE_trans hlv ?_)
      · rw [hyv]
        rfl
      · rw [hvy]
        rfl
    obtain ⟨z, hz, hzl⟩ := hstays p₁ s l q₁ y (q₂ ++ high) (by simp) hyl
    cases List.mem_append.mp hz with
    | inl hlower => exact hnone z hlower
    | inr hupper =>
      have hvz := (lt_iff_not_isLE v z).mp (hhigh (.introduced z) hupper)
      have hzv : (cmp z v).isLE = true := by
        refine Std.TransCmp.isLE_trans (?_ : (cmp z l).isLE = true) hlv
        rw [hzl]
        rfl
      rw [hzv] at hvz
      cases hvz
  · cases ht : openAfter none low with
    | none =>
      rw [ht, spans_above hhigh fun x hx => by cases hx] at hopen
      cases hopen
    | some t =>
      obtain ⟨p, rfl⟩ := openAfter_some ht
      rw [List.foldl_append]
      exact if_pos (hlow (.introduced t) (List.mem_append_right _ List.mem_cons_self))

/-- What is affected is covered. -/
theorem covered_of_affected (hsorted : Sorted cmp (low ++ high)) (hlow : UpTo cmp v low) (hhigh : Above cmp v high)
    (hrestarts : Restarts cmp (low ++ high)) (h : low.foldl (scan cmp v) false = true) :
    (spans none (low ++ high)).any (Span.covers cmp v) = true := by
  have hsortedLow : Sorted cmp low := hsorted.sublist (List.sublist_append_left _ _)
  obtain hclosed | hopen := scan_true hlow hsortedLow h
  · exact (covered_cut cmp _ _ v).mpr (.inl hclosed)
  · obtain ⟨t, ht⟩ := Option.isSome_iff_exists.mp hopen
    obtain ⟨p, rfl⟩ := openAfter_some ht
    have hstart : (cmp t v).isLE = true := hlow (.introduced t) (List.mem_append_right _ List.mem_cons_self)
    by_cases hagain : ∃ x q, high = .introduced x :: q
    · obtain ⟨x, q, rfl⟩ := hagain
      obtain ⟨p₁, s, l, p₂, rfl, hl⟩ := hrestarts p t x q (by simp) v hstart (hhigh _ List.mem_cons_self)
      refine (covered_cut cmp _ _ v).mpr (.inl ((closed_covers hsortedLow hlow).mpr ?_))
      exact ⟨p₁, s, l, p₂ ++ [Mark.introduced t], by simp, hl⟩
    · refine (covered_cut cmp _ _ v).mpr (.inr ?_)
      rw [ht]
      exact (spans_open hhigh hstart).mpr fun y q' hq => hagain ⟨y, q', hq⟩

/-- Versions below a beginning that was forgotten are in no interval, but for one closed before. -/
theorem restarts_of_kept (hsorted : Sorted cmp marks)
    (hkept : ∀ v, (spans none marks).any (Span.covers cmp v) = true ↔ evaluate cmp marks v = true) : Restarts cmp marks := by
  rintro p a x q rfl v ha hx
  rw [List.append_cons] at hsorted hkept
  obtain ⟨hsortedLow, hsortedHigh, -⟩ := List.pairwise_append.mp hsorted
  have hlow : UpTo cmp v (p ++ [Mark.introduced a]) := by
    intro m hm
    cases List.mem_append.mp hm with
    | inl hp =>
      have hle := (List.pairwise_append.mp hsortedLow).2.2 m hp (.introduced a) List.mem_cons_self
      exact Std.TransCmp.isLE_trans hle ha
    | inr heq => exact List.mem_singleton.mp heq ▸ ha
  have hhigh : Above cmp v (.introduced x :: q) :=
    List.forall_mem_cons.mpr ⟨hx, fun m hm => Std.TransCmp.lt_of_lt_of_isLE hx ((List.pairwise_cons.mp hsortedHigh).1 m hm)⟩
  have haffected : evaluate cmp (p ++ [Mark.introduced a] ++ Mark.introduced x :: q) v = true := by
    rw [evaluate_cut hhigh, List.foldl_append]
    exact if_pos ha
  obtain hclosed | hopen := (covered_cut cmp _ _ v).mp ((hkept v).mpr haffected)
  · obtain ⟨p₁, s, l, p₂, hp, hl⟩ := (closed_covers hsortedLow hlow).mp hclosed
    obtain ⟨p₂', -, hp'⟩ | ⟨hm, -⟩ := adjacent_snoc hp
    · exact ⟨p₁, s, l, p₂', hp', hl⟩
    · cases hm
  · have hstart : openAfter none (p ++ [Mark.introduced a]) = some a := openAfter_append none p _
    rw [hstart, spans_open hhigh ha] at hopen
    exact (hopen x q rfl).elim

/-- A last affected version is in its interval, whatever follows. -/
theorem stays_of_kept (hsorted : Sorted cmp marks)
    (hkept : ∀ v, (spans none marks).any (Span.covers cmp v) = true ↔ evaluate cmp marks v = true) :
    StaysAffected cmp marks := by
  rintro p s l q₁ y q₂ rfl hyl
  have hcons : p ++ Mark.introduced s :: .lastAffected l :: (q₁ ++ Mark.fixed y :: q₂) =
      (p ++ Mark.introduced s :: .lastAffected l :: q₁) ++ Mark.fixed y :: q₂ := by simp
  rw [hcons] at hsorted hkept
  obtain ⟨-, hafter, hbefore⟩ := List.pairwise_append.mp hsorted
  have hyle : (cmp y l).isLE = true := by
    rw [hyl]
    rfl
  obtain ⟨r, high, rfl, hr, hhigh⟩ := cut (List.pairwise_cons.mp hafter).2 l
  have hlow : UpTo cmp l (p ++ Mark.introduced s :: .lastAffected l :: (q₁ ++ Mark.fixed y :: r)) := by
    intro m hm
    have hparts : m ∈ p ++ Mark.introduced s :: .lastAffected l :: q₁ ∨ m = .fixed y ∨ m ∈ r := by
      simpa [or_assoc] using hm
    obtain hm | rfl | hm := hparts
    · exact Std.TransCmp.isLE_trans (hbefore m hm (.fixed y) List.mem_cons_self) hyle
    · exact hyle
    · exact hr m hm
  have hmarks : (p ++ Mark.introduced s :: .lastAffected l :: q₁) ++ Mark.fixed y :: (r ++ high) =
      (p ++ Mark.introduced s :: .lastAffected l :: (q₁ ++ Mark.fixed y :: r)) ++ high := by simp
  rw [hmarks] at hsorted hkept
  have hsortedLow := (List.pairwise_append.mp hsorted).1
  have hclosed : (closed none (p ++ Mark.introduced s :: .lastAffected l :: (q₁ ++ Mark.fixed y :: r))).any
      (Span.covers cmp l) = true :=
    (closed_covers hsortedLow hlow).mpr ⟨p, s, l, _, rfl, Std.ReflCmp.isLE_rfl⟩
  have haffected := (hkept l).mp ((covered_cut cmp _ _ l).mpr (.inl hclosed))
  rw [evaluate_cut hhigh, (scan_closed hsortedLow hlow Std.ReflCmp.isLE_rfl).1, List.foldl_append, List.foldl_cons] at haffected
  by_contra hnone
  have hstays : r.foldl (scan cmp l) false = false := by
    refine scan_stays fun z hz => Bool.eq_false_iff.mpr fun hzl => hnone ⟨z, List.mem_append_left _ hz, ?_⟩
    have hyz := (List.pairwise_cons.mp hafter).1 (.introduced z) (List.mem_append_left _ hz)
    have hly : (cmp l y).isLE = true := by
      rw [Std.OrientedCmp.eq_comm.mp hyl]
      rfl
    exact eq_of_isLE hzl (Std.TransCmp.isLE_trans hly hyz)
  have hfixed : scan cmp l (q₁.foldl (scan cmp l) true) (.fixed y) = false := if_pos hyle
  rw [hfixed, hstays] at haffected
  cases haffected

/-- The intervals mean what the events say exactly when no interval is begun again at a later version (but for versions of
an interval closed before) and no last affected version is the fixed version of a later event. -/
theorem ranges_kept_iff (hzero : ∀ v, (cmp (lit "0") v).isLE = true) (hsorted : Sorted cmp marks) (hfits : Fits marks) :
    Kept cmp marks ↔ Restarts cmp marks ∧ StaysAffected cmp marks := by
  rw [kept_iff hzero hfits]
  constructor
  · exact fun hkept => ⟨restarts_of_kept hsorted hkept, stays_of_kept hsorted hkept⟩
  · rintro ⟨hrestarts, hstays⟩ v
    obtain ⟨low, high, rfl, hlow, hhigh⟩ := cut hsorted v
    rw [evaluate_cut hhigh]
    exact ⟨affected_of_covered hsorted hlow hhigh hstays, covered_of_affected hsorted hlow hhigh hrestarts⟩

end

/-! ## Plain numbers -/

/-- Versions that are numbers -/
def byValue : Str → Str → Ordering := compareOn value

instance : Std.TransCmp byValue := inferInstanceAs (Std.TransCmp (compareOn value))

theorem zero_first (v : Str) : (byValue (lit "0") v).isLE = true := by
  have hzero : value (lit "0") = 0 := by with_unfolding_all decide
  rw [byValue, compareOn, hzero, Nat.isLE_compare]
  exact Nat.zero_le _

def fixedOnce : List Mark := [.introduced ['0'], .fixed ['3'], .introduced ['5'], .lastAffected ['7']]

theorem fixedOnce_kept_iff : Kept byValue fixedOnce ↔ Restarts byValue fixedOnce ∧ StaysAffected byValue fixedOnce := by
  refine ranges_kept_iff zero_first ?_ ?_
  · unfold Sorted fixedOnce
    with_unfolding_all decide
  · unfold Fits FitsColumn fixedOnce
    with_unfolding_all decide

/-- Introduced in 1, and again in 3 before it is fixed in 5 -/
def introducedTwice : List Mark := [.introduced ['1'], .introduced ['3'], .fixed ['5']]

/-- Version 2 is affected and lies in no interval. -/
theorem introducedTwice_lost : Sorted byValue introducedTwice ∧ Fits introducedTwice ∧ ¬ Kept byValue introducedTwice := by
  refine ⟨?_, ?_, fun hkept => ?_⟩
  · unfold Sorted introducedTwice
    with_unfolding_all decide
  · unfold Fits FitsColumn introducedTwice
    with_unfolding_all decide
  · have haffected : evaluate byValue introducedTwice ['2'] = true := by with_unfolding_all decide
    obtain ⟨i, hi, hcovers⟩ := (hkept ['2']).mpr haffected
    have hnone : (intervals [range introducedTwice]).all fun i => _affected (byOrder byValue) ['2'] i ≠ .ok true := by
      with_unfolding_all decide
    exact of_decide_eq_true (List.all_eq_true.mp hnone i hi) hcovers

end OsvRanges
