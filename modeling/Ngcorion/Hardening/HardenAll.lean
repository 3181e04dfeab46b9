import Mathlib.Data.List.Nodup
import Mathlib.Data.List.Perm.Basic
import Mathlib.Data.Option.Basic
import Ngcorion.Text

/-!
# Outcomes of Harden All

A family returns rows by check number, some with a VDOM. They are put back to the selected checks through two indexes, by number
and VDOM and by number, whose lists are used up apart from each other.
-/
namespace HardenAll

open Text

structure PlanCheck where
  result_id : Nat
  check_number : Str
  check_title : Option Str
  vdom : Option Str

/-- A row as a family returns it -/
structure RawRow where
  check_number : Option Str
  check_id : Option Str
  check_title : Option Str
  vdom : Option Str
  status : Option Str
  success : Bool
  reason : Option Str
  error : Option Str
  error_message : Option Str
  verification_evidence : Option Str
  verification_result : Option Str
  message : Option Str
  commands : List Str

structure Raw where
  results : List RawRow
  dry_run : Bool
  skipped : List Str

structure Row where
  check_number : Str
  check_title : Option Str
  vdom : Option Str
  status : Str
  detail : Option Str
  commands : List Str
  deriving DecidableEq

structure CheckOutcome where
  result_id : Option Nat
  check_number : Str
  check_title : Option Str
  vdom : Option Str
  status : Str
  detail : Option Str
  commands : List Str

/-! ## Rows of the families -/

/-- `a or b` -/
def orElse (a b : Option Str) : Option Str := if a.getD [] = [] then b else a

def statuses : List Str := [lit "success", lit "failed", lit "skipped"]

def _normalize_status_rows (u : Unicode) (raw : Raw) : List Row :=
  raw.results.map fun r =>
    let status := u.lower (r.status.getD [])
    { check_number := (orElse r.check_number r.check_id).getD []
      check_title := r.check_title
      vdom := r.vdom
      status := if status ∉ statuses then if r.success then lit "success" else lit "failed" else status
      detail := orElse r.reason (orElse r.error (orElse r.error_message
        (orElse r.verification_evidence r.verification_result)))
      commands := r.commands }

def _normalize_success_rows (raw : Raw) : List Row :=
  (raw.results.map fun r =>
    { check_number := (orElse r.check_id r.check_number).getD []
      check_title := r.check_title
      vdom := none
      status :=
        if raw.dry_run then if r.error_message.getD [] ≠ [] then lit "skipped" else lit "success"
        else if r.success then lit "success" else lit "failed"
      detail := orElse r.error_message (orElse r.verification_result r.message)
      commands := r.commands }) ++
  raw.skipped.map fun check_id => ⟨check_id, none, none, lit "skipped", some (lit "Not auto-fixable"), []⟩

/-- The two kinds of families -/
inductive Dialect where
  | status | success

def normalize_rows (u : Unicode) : Dialect → Raw → List Row
  | .status => _normalize_status_rows u
  | .success => _normalize_success_rows

/-! ## Outcomes -/

/-- `by_key` and `by_number` -/
structure Index where
  by_key : Str × Option Str → List PlanCheck
  by_number : Str → List PlanCheck

def keyed (selected : List PlanCheck) (key : Str × Option Str) : List PlanCheck :=
  selected.filter fun c => (c.check_number, c.vdom) = key

def numbered (selected : List PlanCheck) (number : Str) : List PlanCheck := selected.filter fun c => c.check_number = number

def Index.of (selected : List PlanCheck) : Index := ⟨keyed selected, numbered selected⟩

def Row.key (row : Row) : Str × Option Str := (row.check_number, row.vdom)

/-- The check of a row; it is taken off the list where it was found. -/
def Index.take (ix : Index) (row : Row) : Option PlanCheck × Index :=
  match ix.by_key row.key with
  | c :: cs => (some c, { ix with by_key := Function.update ix.by_key row.key cs })
  | [] =>
    match ix.by_number row.check_number with
    | c :: cs => (some c, { ix with by_number := Function.update ix.by_number row.check_number cs })
    | [] => (none, ix)

def outcome (row : Row) (found : Option PlanCheck) : CheckOutcome where
  result_id := found.map PlanCheck.result_id
  check_number := row.check_number
  check_title := orElse row.check_title (found.bind PlanCheck.check_title)
  vdom := orElse row.vdom (found.bind PlanCheck.vdom)
  status := if row.status = [] then lit "failed" else row.status
  detail := row.detail
  commands := row.commands

def reattachFrom (ix : Index) : List Row → List CheckOutcome
  | [] => []
  | row :: rows => outcome row (ix.take row).1 :: reattachFrom (ix.take row).2 rows

def _reattach_result_ids (rows : List Row) (selected : List PlanCheck) : List CheckOutcome :=
  reattachFrom (.of selected) rows

/-- The outcome of a check that the family did not report -/
def noResult (c : PlanCheck) : CheckOutcome :=
  ⟨some c.result_id, c.check_number, c.check_title, c.vdom, lit "failed",
    some (lit "The device returned no result for this check"), []⟩

structure HardenAllResult where
  total : Nat
  successful : Nat
  failed : Nat
  skipped : Nat
  results : List CheckOutcome

def unreported (selected : List PlanCheck) (outcomes : List CheckOutcome) : List PlanCheck :=
  selected.filter fun c => some c.result_id ∉ outcomes.map CheckOutcome.result_id

/-- `execute_plan` after the family has run: outcomes are never empty, as no selection is. -/
def execute_plan (u : Unicode) (dialect : Dialect) (raw : Raw) (selected : List PlanCheck) : Except Str HardenAllResult :=
  if selected = [] then .error (lit "No fixable failed checks in this session")
  else
    let outcomes := _reattach_result_ids (normalize_rows u dialect raw) selected
    let missing := unreported selected outcomes
    .ok {
      total := selected.length
      successful := outcomes.countP fun o => o.status = lit "success"
      failed := (outcomes.countP fun o => o.status = lit "failed") + missing.length
      skipped := outcomes.countP fun o => o.status = lit "skipped"
      results := outcomes ++ missing.map noResult }

/-! ## What a family may return -/

/-- The number of rows of a check number without a VDOM -/
def plain (rows : List Row) (number : Str) : Nat := rows.countP fun r => r.key = (number, none)

/-- No more rows of a number than checks; a row with a VDOM is one of a selected pair, and the only one. -/
structure Returned (selected : List PlanCheck) (rows : List Row) : Prop where
  distinct : (selected.map PlanCheck.result_id).Nodup
  few : ∀ number, (rows.countP fun r => r.check_number = number) ≤ (numbered selected number).length
  known : ∀ r ∈ rows, r.vdom ≠ none → keyed selected r.key ≠ []
  once : ((rows.filter fun r => r.vdom ≠ none).map Row.key).Nodup

/-- The rows without a VDOM that no check without a VDOM is left for take the first checks of their number: these have a VDOM,
and no row with that VDOM takes them. -/
def Spare (selected : List PlanCheck) (rows : List Row) : Prop :=
  ∀ number, ∀ c ∈ (numbered selected number).take (plain rows number - (keyed selected (number, none)).length),
    c.vdom ≠ none ∧ ∀ r ∈ rows, r.key = (number, c.vdom) → (keyed selected r.key).head? ≠ some c

/-! ## The check of a row -/

/-- The check of a row after others -/
def found (selected : List PlanCheck) (earlier : List Row) (row : Row) : Option PlanCheck :=
  if row.vdom ≠ none then (keyed selected row.key).head?
  else
    let own := keyed selected row.key
    let used := plain earlier row.check_number
    if used < own.length then own[used]? else (numbered selected row.check_number)[used - own.length]?

/-- The indexes after some rows -/
def after (selected : List PlanCheck) (earlier : List Row) : Index where
  by_key key := (keyed selected key).drop (earlier.countP fun r => r.key = key)
  by_number number := (numbered selected number).drop (plain earlier number - (keyed selected (number, none)).length)

theorem after_nil (selected : List PlanCheck) : after selected [] = .of selected := by simp [after, Index.of, plain]

theorem plain_append (earlier : List Row) (row : Row) (number : Str) :
    plain (earlier ++ [row]) number = plain earlier number + if row.key = (number, none) then 1 else 0 := by
  simp [plain, List.countP_append, List.countP_singleton]

theorem by_key_append (selected : List PlanCheck) (earlier : List Row) (row : Row) :
    (after selected (earlier ++ [row])).by_key =
      Function.update (after selected earlier).by_key row.key ((after selected earlier).by_key row.key).tail := by
  funext key
  by_cases hkey : key = row.key
  · rw [hkey, Function.update_self]
    simp [after, List.tail_drop]
  · rw [Function.update_of_ne hkey]
    simp [after, Ne.symm hkey]

/-- A row that its pair has no check for is taken by its number. -/
theorem by_number_append (selected : List PlanCheck) (earlier : List Row) (row : Row) :
    (after selected (earlier ++ [row])).by_number =
      if row.vdom = none ∧ (keyed selected row.key).length ≤ plain earlier row.check_number then
        Function.update (after selected earlier).by_number row.check_number
          ((after selected earlier).by_number row.check_number).tail
      else (after selected earlier).by_number := by
  funext number
  simp only [after, plain_append]
  by_cases hkey : row.key = (number, none)
  · obtain ⟨rfl, hvdom⟩ := Prod.mk.inj hkey
    rw [if_pos hkey]
    by_cases hused : (keyed selected row.key).length ≤ plain earlier row.check_number
    · have hsucc : plain earlier row.check_number + 1 - (keyed selected row.key).length =
          plain earlier row.check_number - (keyed selected row.key).length + 1 := by omega
      rw [if_pos ⟨hvdom, hused⟩, Function.update_self, ← hkey, hsucc, List.tail_drop]
    · rw [if_neg fun h => hused h.2, ← hkey]
      congr 1
      omega
  · rw [if_neg hkey, Nat.add_zero]
    split
    · next h =>
      have hne : number ≠ row.check_number := by
        rintro rfl
        exact hkey (Prod.ext rfl h.1)
      rw [Function.update_of_ne hne]
    · rfl

theorem take_after {selected : List PlanCheck} {earlier : List Row} {row : Row}
    (hrow : row.vdom ≠ none → keyed selected row.key ≠ [] ∧ earlier.countP (fun r => r.key = row.key) = 0) :
    (after selected earlier).take row = (found selected earlier row, after selected (earlier ++ [row])) := by
  have hafter : after selected (earlier ++ [row]) =
      ⟨(after selected (earlier ++ [row])).by_key, (after selected (earlier ++ [row])).by_number⟩ := rfl
  rw [hafter, by_key_append, by_number_append, Index.take]
  by_cases hvdom : row.vdom = none
  · have hkey : row.key = (row.check_number, none) := Prod.ext rfl hvdom
    have hused : (after selected earlier).by_key row.key = (keyed selected row.key).drop (plain earlier row.check_number) := by
      simp [after, plain, hkey]
    by_cases hlt : plain earlier row.check_number < (keyed selected row.key).length
    · have hfound : found selected earlier row = some (keyed selected row.key)[plain earlier row.check_number] := by
        simp [found, hvdom, hlt]
      rw [if_neg fun h => absurd h.2 (by omega), hfound, hused, List.drop_eq_getElem_cons hlt]
      rfl
    · have hfound : found selected earlier row =
          (numbered selected row.check_number)[plain earlier row.check_number - (keyed selected row.key).length]? := by
        simp [found, hvdom, hlt]
      have hby : (after selected earlier).by_number row.check_number =
          (numbered selected row.check_number).drop (plain earlier row.check_number - (keyed selected row.key).length) := by
        rw [hkey]
        rfl
      have hempty : (keyed selected row.key).drop (plain earlier row.check_number) = [] := List.drop_eq_nil_of_le (by omega)
      have hself : Function.update (after selected earlier).by_key row.key ([] : List PlanCheck).tail = (after selected earlier).by_key := by
        rw [List.tail_nil, ← hempty, ← hused, Function.update_eq_self]
      rw [if_pos ⟨hvdom, by omega⟩, hfound, hused, hempty, hself, hby, ← List.head?_drop]
      cases hrest : (numbered selected row.check_number).drop (plain earlier row.check_number - (keyed selected row.key).length) with
      | nil =>
        rw [hrest] at hby
        have hsame : Function.update (after selected earlier).by_number row.check_number ([] : List PlanCheck).tail =
            (after selected earlier).by_number := by rw [List.tail_nil, ← hby, Function.update_eq_self]
        rw [hsame]
        rfl
      | cons c cs => rfl
  · obtain ⟨hkeyed, hcount⟩ := hrow hvdom
    obtain ⟨c, cs, hcs⟩ := List.exists_cons_of_ne_nil hkeyed
    have hby : (after selected earlier).by_key row.key = c :: cs := by simp [after, hcount, hcs]
    have hfound : found selected earlier row = some c := by simp [found, hvdom, hcs]
    rw [if_neg fun h => hvdom h.1, hfound, hby]
    rfl

/-- The outcomes, each with the check that the rows before it leave -/
theorem reattach_from {selected : List PlanCheck} {earlier rows : List Row}
    (hknown : ∀ r ∈ rows, r.vdom ≠ none → keyed selected r.key ≠ [])
    (honce : (((earlier ++ rows).filter fun r => r.vdom ≠ none).map Row.key).Nodup) :
    (reattachFrom (after selected earlier) rows).length = rows.length ∧
      ∀ i (hi : i < rows.length), (reattachFrom (after selected earlier) rows)[i]? =
        some (outcome rows[i] (found selected (earlier ++ rows.take i) rows[i])) := by
  induction rows generalizing earlier with
  | nil => simp [reattachFrom]
  | cons row rows ih =>
    have hrow : row.vdom ≠ none → keyed selected row.key ≠ [] ∧ earlier.countP (fun r => r.key = row.key) = 0 := by
      intro hvdom
      refine ⟨hknown row List.mem_cons_self hvdom, List.countP_eq_zero.mpr fun r hr hkey => ?_⟩
      have hkey : r.key = row.key := of_decide_eq_true hkey
      have hrvdom : r.vdom ≠ none := by
        rw [show r.vdom = row.vdom from congrArg Prod.snd hkey]
        exact hvdom
      rw [List.filter_append, List.map_append, List.nodup_append] at honce
      refine honce.2.2 r.key ?_ row.key ?_ hkey
      · exact List.mem_map.mpr ⟨r, List.mem_filter.mpr ⟨hr, by simpa using hrvdom⟩, rfl⟩
      · exact List.mem_map.mpr ⟨row, List.mem_filter.mpr ⟨List.mem_cons_self, by simpa using hvdom⟩, rfl⟩
    have honce' : (((earlier ++ [row] ++ rows).filter fun r => r.vdom ≠ none).map Row.key).Nodup := by simpa using honce
    have hrest := ih (fun r hr => hknown r (List.mem_cons_of_mem _ hr)) honce'
    rw [reattachFrom, take_after hrow]
    refine ⟨by simp [hrest.1], fun i hi => ?_⟩
    cases i with
    | zero => simp
    | succ i =>
      have hi' : i < rows.length := by simpa using hi
      simpa using hrest.2 i hi'

/-- The check of the row at an index -/
def foundAt (selected : List PlanCheck) (rows : List Row) (i : Nat) (hi : i < rows.length) : Option PlanCheck :=
  found selected (rows.take i) rows[i]

theorem reattach_get {selected : List PlanCheck} {rows : List Row} (h : Returned selected rows) :
    (_reattach_result_ids rows selected).length = rows.length ∧ ∀ i (hi : i < rows.length),
      (_reattach_result_ids rows selected)[i]? = some (outcome rows[i] (foundAt selected rows i hi)) := by
  have hfrom : (reattachFrom (after selected []) rows).length = rows.length ∧ ∀ i (hi : i < rows.length),
      (reattachFrom (after selected []) rows)[i]? = some (outcome rows[i] (found selected ([] ++ rows.take i) rows[i])) :=
    reattach_from h.known h.once
  rw [after_nil] at hfrom
  exact hfrom

/-! ## The rows without a VDOM -/

section

variable {selected : List PlanCheck} {rows : List Row}

theorem plain_take_lt {i : Nat} (hi : i < rows.length) {number : Str} (hkey : rows[i].key = (number, none)) :
    plain (rows.take i) number < plain rows number := by
  have hsplit : rows = rows.take i ++ rows[i] :: rows.drop (i + 1) := by
    rw [List.getElem_cons_drop, List.take_append_drop]
  have hcount : plain rows number = plain (rows.take i) number + plain (rows[i] :: rows.drop (i + 1)) number := by
    conv_lhs => rw [hsplit]
    exact List.countP_append
  have hone : plain (rows[i] :: rows.drop (i + 1)) number = plain (rows.drop (i + 1)) number + 1 :=
    List.countP_cons_of_pos (by simpa using hkey)
  omega

/-- Each number below their count is that of the rows before one of them. -/
theorem exists_plain {number : Str} {j : Nat} (hj : j < plain rows number) :
    ∃ i, ∃ hi : i < rows.length, rows[i].key = (number, none) ∧ plain (rows.take i) number = j := by
  induction rows generalizing j with
  | nil => cases hj
  | cons row rows ih =>
    by_cases hkey : row.key = (number, none)
    · have hcons : plain (row :: rows) number = plain rows number + 1 := List.countP_cons_of_pos (by simpa using hkey)
      cases j with
      | zero => exact ⟨0, by simp, hkey, rfl⟩
      | succ j =>
        obtain ⟨i, hi, hrow, hcount⟩ := ih (j := j) (by omega)
        refine ⟨i + 1, by simpa using hi, hrow, ?_⟩
        rw [List.take_succ_cons, ← hcount]
        exact List.countP_cons_of_pos (by simpa using hkey)
    · have hcons : plain (row :: rows) number = plain rows number := List.countP_cons_of_neg (by simpa using hkey)
      obtain ⟨i, hi, hrow, hcount⟩ := ih (j := j) (by omega)
      refine ⟨i + 1, by simpa using hi, hrow, ?_⟩
      rw [List.take_succ_cons, ← hcount]
      exact List.countP_cons_of_neg (by simpa using hkey)

theorem plain_le_few (h : Returned selected rows) (number : Str) : plain rows number ≤ (numbered selected number).length := by
  refine Nat.le_trans (List.countP_mono_left fun r _ hr => ?_) (h.few number)
  exact decide_eq_true (congrArg Prod.fst (of_decide_eq_true hr))

/-! ## Which check is found -/

theorem found_plain_own {earlier : List Row} {row : Row} (hvdom : row.vdom = none)
    (hlt : plain earlier row.check_number < (keyed selected row.key).length) :
    found selected earlier row = (keyed selected row.key)[plain earlier row.check_number]? := by simp [found, hvdom, hlt]

theorem found_plain_spare {earlier : List Row} {row : Row} (hvdom : row.vdom = none)
    (hle : (keyed selected row.key).length ≤ plain earlier row.check_number) : found selected earlier row =
      (numbered selected row.check_number)[plain earlier row.check_number - (keyed selected row.key).length]? := by
  simp [found, hvdom, Nat.not_lt.mpr hle]

theorem found_vdom {earlier : List Row} {row : Row} (hvdom : row.vdom ≠ none) :
    found selected earlier row = (keyed selected row.key).head? := by simp [found, hvdom]

theorem mem_keyed {c : PlanCheck} {key : Str × Option Str} (h : c ∈ keyed selected key) :
    c ∈ selected ∧ (c.check_number, c.vdom) = key := by simpa [keyed] using h

theorem mem_numbered {c : PlanCheck} {number : Str} (h : c ∈ numbered selected number) :
    c ∈ selected ∧ c.check_number = number := by simpa [numbered] using h

/-- Each row finds a check of its number, and of its VDOM where it has one. -/
theorem foundAt_some (h : Returned selected rows) (i : Nat) (hi : i < rows.length) :
    ∃ c ∈ selected, foundAt selected rows i hi = some c ∧ c.check_number = rows[i].check_number ∧
      (rows[i].vdom ≠ none → c.vdom = rows[i].vdom) := by
  by_cases hvdom : rows[i].vdom = none
  · have hkey : rows[i].key = (rows[i].check_number, none) := Prod.ext rfl hvdom
    by_cases hlt : plain (rows.take i) rows[i].check_number < (keyed selected rows[i].key).length
    · have hmem := mem_keyed (List.getElem_mem hlt)
      refine ⟨_, hmem.1, ?_, congrArg Prod.fst hmem.2, fun hv => absurd hvdom hv⟩
      rw [foundAt, found_plain_own hvdom hlt, List.getElem?_eq_getElem hlt]
    · have hused := plain_take_lt hi hkey
      have hfew := plain_le_few h rows[i].check_number
      have hbound : plain (rows.take i) rows[i].check_number - (keyed selected rows[i].key).length <
          (numbered selected rows[i].check_number).length := by omega
      have hmem := mem_numbered (List.getElem_mem hbound)
      refine ⟨_, hmem.1, ?_, hmem.2, fun hv => absurd hvdom hv⟩
      rw [foundAt, found_plain_spare hvdom (Nat.not_lt.mp hlt), List.getElem?_eq_getElem hbound]
  · obtain ⟨c, cs, hcs⟩ := List.exists_cons_of_ne_nil (h.known rows[i] (List.getElem_mem hi) hvdom)
    have hmem := mem_keyed (hcs ▸ List.mem_cons_self : c ∈ keyed selected rows[i].key)
    refine ⟨c, hmem.1, ?_, congrArg Prod.fst hmem.2, fun _ => congrArg Prod.snd hmem.2⟩
    rw [foundAt, found_vdom hvdom, hcs]
    rfl

/-! ## Each check once -/

theorem selected_nodup (h : Returned selected rows) : selected.Nodup := h.distinct.of_map

theorem key_ne (h : Returned selected rows) {i j : Nat} (hij : i < j) (hj : j < rows.length) (hi : rows[i].vdom ≠ none) :
    rows[i].key ≠ rows[j].key := by
  have hpairwise := h.once
  rw [List.nodup_iff_pairwise_ne, List.pairwise_map, List.pairwise_filter, List.pairwise_iff_getElem] at hpairwise
  intro hkey
  have hvdom : rows[i].vdom = rows[j].vdom := congrArg Prod.snd hkey
  exact hpairwise i j (by omega) hj hij (by simpa using hi) (by simpa [← hvdom] using hi) hkey

/-- A row without a VDOM finds a check without one, or one of those that are spare. -/
theorem foundAt_plain {i : Nat} (hi : i < rows.length) (hvdom : rows[i].vdom = none) {c : PlanCheck}
    (hc : foundAt selected rows i hi = some c) :
    (keyed selected (rows[i].check_number, none))[plain (rows.take i) rows[i].check_number]? = some c ∨
      ∃ k < plain rows rows[i].check_number - (keyed selected (rows[i].check_number, none)).length,
        plain (rows.take i) rows[i].check_number = k + (keyed selected (rows[i].check_number, none)).length ∧
          (numbered selected rows[i].check_number)[k]? = some c := by
  have hkey : rows[i].key = (rows[i].check_number, none) := Prod.ext rfl hvdom
  rw [← hkey]
  by_cases hlt : plain (rows.take i) rows[i].check_number < (keyed selected rows[i].key).length
  · rw [foundAt, found_plain_own hvdom hlt] at hc
    exact .inl hc
  · rw [foundAt, found_plain_spare hvdom (Nat.not_lt.mp hlt)] at hc
    have hused := plain_take_lt hi hkey
    exact .inr ⟨_, by omega, by omega, hc⟩

theorem mem_take_of_getElem? {α : Type} {l : List α} {a : α} {k n : Nat} (h : l[k]? = some a) (hk : k < n) : a ∈ l.take n := by
  obtain ⟨hlt, rfl⟩ := List.getElem?_eq_some_iff.mp h
  exact List.mem_take_iff_getElem.mpr ⟨k, by omega, rfl⟩

theorem plain_take_mono {i j : Nat} (hij : i < j) (hj : j < rows.length) {number : Str} (hkey : rows[i].key = (number, none)) :
    plain (rows.take i) number < plain (rows.take j) number := by
  have hi : i < (rows.take j).length := by rw [List.length_take]; omega
  have hrow : (rows.take j)[i].key = (number, none) := by simpa using hkey
  simpa [List.take_take, Nat.min_eq_left (Nat.le_of_lt hij)] using plain_take_lt hi hrow

theorem keyed_vdom {c : PlanCheck} {number : Str} {vdom : Option Str} {k : Nat}
    (h : (keyed selected (number, vdom))[k]? = some c) : c.vdom = vdom :=
  congrArg Prod.snd (mem_keyed (List.mem_of_getElem? h)).2

/-- A row with a VDOM and one without find different checks. -/
theorem keyed_ne_plain (h : Returned selected rows) (hspare : Spare selected rows) {i j : Nat} (hi : i < rows.length)
    (hj : j < rows.length) (hvdom : rows[i].vdom ≠ none) (hplain : rows[j].vdom = none) :
    foundAt selected rows i hi ≠ foundAt selected rows j hj := by
  intro heq
  obtain ⟨c, -, hci, hnumi, hvdomi⟩ := foundAt_some h i hi
  obtain ⟨d, -, hcj, hnumj, -⟩ := foundAt_some h j hj
  obtain rfl : c = d := Option.some.inj (hci.symm.trans (heq.trans hcj))
  have hc := hvdomi hvdom
  rcases foundAt_plain hj hplain hcj with hown | ⟨k, hk, -, hget⟩
  · exact hvdom (hc.symm.trans (keyed_vdom hown))
  · have hkey : rows[i].key = (rows[j].check_number, c.vdom) := Prod.ext (hnumi.symm.trans hnumj) hc.symm
    obtain ⟨-, hnot⟩ := hspare _ c (mem_take_of_getElem? hget hk)
    rw [foundAt, found_vdom hvdom] at hci
    exact hnot rows[i] (List.getElem_mem hi) hkey hci

/-- When the spare checks are not taken otherwise, no check is found twice. -/
theorem foundAt_ne (h : Returned selected rows) (hspare : Spare selected rows) {i j : Nat} (hij : i < j) (hj : j < rows.length) :
    foundAt selected rows i (by omega) ≠ foundAt selected rows j hj := by
  have hi : i < rows.length := by omega
  by_cases hvi : rows[i].vdom = none
  · by_cases hvj : rows[j].vdom = none
    · intro heq
      obtain ⟨c, -, hci, hnumi, -⟩ := foundAt_some h i hi
      obtain ⟨d, -, hcj, hnumj, -⟩ := foundAt_some h j hj
      obtain rfl : c = d := Option.some.inj (hci.symm.trans (heq.trans hcj))
      have hnumber : rows[i].check_number = rows[j].check_number := hnumi.symm.trans hnumj
      have hlt : plain (rows.take i) rows[i].check_number < plain (rows.take j) rows[i].check_number :=
        plain_take_mono hij hj (Prod.ext rfl hvi)
      have hnodup := selected_nodup h
      have hown := foundAt_plain hi hvi hci
      have hown' := foundAt_plain hj hvj hcj
      rw [← hnumber] at hown'
      rcases hown with hget | ⟨k, hk, hused, hget⟩
      · rcases hown' with hget' | ⟨k', hk', -, hget'⟩
        · have hindex := (List.getElem?_inj (List.getElem?_eq_some_iff.mp hget).1 (hnodup.filter _)).mp (hget.trans hget'.symm)
          omega
        · exact (hspare _ c (mem_take_of_getElem? hget' hk')).1 (keyed_vdom hget)
      · rcases hown' with hget' | ⟨k', hk', hused', hget'⟩
        · exact (hspare _ c (mem_take_of_getElem? hget hk)).1 (keyed_vdom hget')
        · have hindex := (List.getElem?_inj (List.getElem?_eq_some_iff.mp hget).1 (hnodup.filter _)).mp (hget.trans hget'.symm)
          omega
    · exact (keyed_ne_plain h hspare hj hi hvj hvi).symm
  · by_cases hvj : rows[j].vdom = none
    · exact keyed_ne_plain h hspare hi hj hvi hvj
    · intro heq
      obtain ⟨c, -, hci, hnumi, hvdomi⟩ := foundAt_some h i hi
      obtain ⟨d, -, hcj, hnumj, hvdomj⟩ := foundAt_some h j hj
      obtain rfl : c = d := Option.some.inj (hci.symm.trans (heq.trans hcj))
      exact key_ne h hij hj hvi (Prod.ext (hnumi.symm.trans hnumj) ((hvdomi hvi).symm.trans (hvdomj hvj)))

/-- When no check is found twice, the spare checks are not taken otherwise. -/
theorem spare_of_ne
    (hne : ∀ i j (hi : i < rows.length) (hj : j < rows.length), foundAt selected rows i hi = foundAt selected rows j hj → i = j) :
    Spare selected rows := by
  intro number c hc
  obtain ⟨k, hk, hget⟩ := List.mem_take_iff_getElem.mp hc
  have hfound : ∀ m < plain rows number, ∃ i, ∃ hi : i < rows.length, rows[i].key = (number, none) ∧ plain (rows.take i) number = m ∧
      foundAt selected rows i hi = if m < (keyed selected (number, none)).length then (keyed selected (number, none))[m]?
        else (numbered selected number)[m - (keyed selected (number, none)).length]? := by
    intro m hm
    obtain ⟨i, hi, hkey, hused⟩ := exists_plain hm
    have hnumber : rows[i].check_number = number := congrArg Prod.fst hkey
    have hvdom : rows[i].vdom = none := congrArg Prod.snd hkey
    refine ⟨i, hi, hkey, hused, ?_⟩
    simp [foundAt, found, hvdom, hkey, hnumber, hused]
  obtain ⟨i, hi, hkey, hused, hci⟩ := hfound (k + (keyed selected (number, none)).length) (by omega)
  rw [if_neg (by omega), Nat.add_sub_cancel, List.getElem?_eq_getElem (by omega), hget] at hci
  have hvdom : c.vdom ≠ none := by
    intro hnone
    have hmem := mem_numbered (hget ▸ List.getElem_mem (by omega) : c ∈ numbered selected number)
    have hown : c ∈ keyed selected (number, none) := List.mem_filter.mpr ⟨hmem.1, decide_eq_true (Prod.ext hmem.2 hnone)⟩
    obtain ⟨m, hm, hgetm⟩ := List.mem_iff_getElem.mp hown
    obtain ⟨j, hj, -, husedj, hcj⟩ := hfound m (by omega)
    rw [if_pos hm, List.getElem?_eq_getElem hm, hgetm] at hcj
    have hij := hne i j hi hj (hci.trans hcj.symm)
    subst hij
    omega
  refine ⟨hvdom, fun r hr hrkey hhead => ?_⟩
  obtain ⟨j, hj, rfl⟩ := List.mem_iff_getElem.mp hr
  have hvj : rows[j].vdom ≠ none := by
    rw [show rows[j].vdom = c.vdom from congrArg Prod.snd hrkey]
    exact hvdom
  have hij := hne i j hi hj (hci.trans ((found_vdom hvj).trans hhead).symm)
  subst hij
  exact hvj (congrArg Prod.snd hkey)

/-! ## The result -/

theorem normalized_status (u : Unicode) (dialect : Dialect) (raw : Raw) : ∀ r ∈ normalize_rows u dialect raw, r.status ∈ statuses := by
  intro r hr
  cases dialect with
  | status =>
    obtain ⟨x, -, rfl⟩ := List.mem_map.mp hr
    dsimp only
    split
    · split <;> simp [statuses]
    · next h => exact not_not.mp h
  | success =>
    rcases List.mem_append.mp hr with hr | hr
    · obtain ⟨x, -, rfl⟩ := List.mem_map.mp hr
      dsimp only
      split
      · split <;> simp [statuses]
      · split <;> simp [statuses]
    · obtain ⟨x, -, rfl⟩ := List.mem_map.mp hr
      simp [statuses]

/-- Each selected check is named once; a row with a VDOM is attached to the check of that VDOM; the rows of a check that is
reported as without a result are attached to other checks, each to its own; the counts add up. -/
structure ReportsOnce (selected : List PlanCheck) (rows : List Row) (result : HardenAllResult) : Prop where
  once : (result.results.map CheckOutcome.result_id).Perm (selected.map fun c => some c.result_id)
  attached : ∀ i (hi : i < rows.length), rows[i].vdom ≠ none → ∃ c ∈ selected, (c.check_number, c.vdom) = rows[i].key ∧
    result.results[i]?.map CheckOutcome.result_id = some (some c.result_id)
  left : ∀ c, noResult c ∈ result.results.drop rows.length →
    (some c.result_id :: ((result.results.take rows.length).filter fun o => o.check_number = c.check_number).map
      CheckOutcome.result_id).Nodup
  counts : result.successful + result.failed + result.skipped = result.results.length

/-- The outcomes of the rows -/
theorem ids_nodup_iff (h : Returned selected rows) : ((_reattach_result_ids rows selected).map CheckOutcome.result_id).Nodup ↔
    ∀ i j (hi : i < rows.length) (hj : j < rows.length), foundAt selected rows i hi = foundAt selected rows j hj → i = j := by
  obtain ⟨hlength, hget⟩ := reattach_get h
  have hid : ∀ i (hi : i < rows.length), ((_reattach_result_ids rows selected).map CheckOutcome.result_id)[i]? =
      some ((foundAt selected rows i hi).map PlanCheck.result_id) := by
    intro i hi
    rw [List.getElem?_map, hget i hi]
    rfl
  have hsame : ∀ i j (hi : i < rows.length) (hj : j < rows.length), (foundAt selected rows i hi).map PlanCheck.result_id =
      (foundAt selected rows j hj).map PlanCheck.result_id → foundAt selected rows i hi = foundAt selected rows j hj := by
    intro i j hi hj hmap
    obtain ⟨c, hc, hci, -⟩ := foundAt_some h i hi
    obtain ⟨d, hd, hdj, -⟩ := foundAt_some h j hj
    rw [hci, hdj] at hmap ⊢
    rw [List.inj_on_of_nodup_map h.distinct hc hd (Option.some.inj hmap)]
  constructor
  · intro hnodup i j hi hj heq
    refine (List.getElem?_inj (by simpa [hlength] using hi) hnodup).mp ?_
    rw [hid i hi, hid j hj, heq]
  · intro hinj
    rw [List.nodup_iff_getElem?_ne_getElem?]
    intro i j hij hj heq
    have hj' : j < rows.length := by simpa [hlength] using hj
    rw [hid i (by omega), hid j hj'] at heq
    have := hinj i j (by omega) hj' (hsame i j (by omega) hj' (Option.some.inj heq))
    omega

theorem spare_iff (h : Returned selected rows) :
    ((_reattach_result_ids rows selected).map CheckOutcome.result_id).Nodup ↔ Spare selected rows := by
  rw [ids_nodup_iff h]
  refine ⟨spare_of_ne, fun hspare i j hi hj heq => ?_⟩
  rcases Nat.lt_trichotomy i j with hij | rfl | hij
  · exact absurd heq (foundAt_ne h hspare hij hj)
  · rfl
  · exact absurd heq.symm (foundAt_ne h hspare hij hi)

theorem reported_mem (h : Returned selected rows) {o : Option Nat}
    (ho : o ∈ (_reattach_result_ids rows selected).map CheckOutcome.result_id) : ∃ c ∈ selected, o = some c.result_id := by
  obtain ⟨hlength, hget⟩ := reattach_get h
  obtain ⟨i, hi, rfl⟩ := List.mem_iff_getElem.mp ho
  have hi' : i < rows.length := by simpa [hlength] using hi
  obtain ⟨c, hc, hci, -⟩ := foundAt_some h i hi'
  refine ⟨c, hc, ?_⟩
  have hfound := hget i hi'
  rw [hci] at hfound
  obtain ⟨_, heq⟩ := List.getElem?_eq_some_iff.mp hfound
  rw [List.getElem_map, heq]
  rfl

theorem ids_nodup (h : Returned selected rows) : (selected.map fun c => some c.result_id).Nodup := by
  have hmap := h.distinct.map (Option.some_injective Nat)
  rwa [List.map_map] at hmap

/-- The outcomes of the rows and those of the checks that are left name each check once. -/
theorem results_perm (h : Returned selected rows)
    (hnodup : ((_reattach_result_ids rows selected).map CheckOutcome.result_id).Nodup) :
    ((_reattach_result_ids rows selected).map CheckOutcome.result_id ++
      (unreported selected (_reattach_result_ids rows selected)).map fun c => some c.result_id).Perm
        (selected.map fun c => some c.result_id) := by
  have hselected := ids_nodup h
  have hrest : ((unreported selected (_reattach_result_ids rows selected)).map fun c => some c.result_id).Nodup :=
    hselected.sublist (List.filter_sublist.map _)
  rw [List.perm_ext_iff_of_nodup]
  · intro o
    rw [List.mem_append]
    constructor
    · rintro (ho | ho)
      · obtain ⟨c, hc, rfl⟩ := reported_mem h ho
        exact List.mem_map.mpr ⟨c, hc, rfl⟩
      · obtain ⟨c, hc, rfl⟩ := List.mem_map.mp ho
        exact List.mem_map.mpr ⟨c, List.mem_of_mem_filter hc, rfl⟩
    · intro ho
      obtain ⟨c, hc, rfl⟩ := List.mem_map.mp ho
      by_cases hmem : some c.result_id ∈ (_reattach_result_ids rows selected).map CheckOutcome.result_id
      · exact .inl hmem
      · exact .inr (List.mem_map.mpr ⟨c, List.mem_filter.mpr ⟨hc, decide_eq_true hmem⟩, rfl⟩)
  · refine List.nodup_append.mpr ⟨hnodup, hrest, fun a ha b hb => ?_⟩
    obtain ⟨c, hc, rfl⟩ := List.mem_map.mp hb
    rintro rfl
    exact of_decide_eq_true (List.mem_filter.mp hc).2 ha
  · exact hselected

theorem count_statuses {outcomes : List CheckOutcome} (h : ∀ o ∈ outcomes, o.status ∈ statuses) :
    (outcomes.countP fun o => o.status = lit "success") + (outcomes.countP fun o => o.status = lit "failed") +
      (outcomes.countP fun o => o.status = lit "skipped") = outcomes.length := by
  have hne : lit "success" ≠ lit "failed" ∧ lit "success" ≠ lit "skipped" ∧ lit "failed" ≠ lit "skipped" := by
    unfold lit
    decide
  induction outcomes with
  | nil => rfl
  | cons o outcomes ih =>
    have hrest := ih fun x hx => h x (List.mem_cons_of_mem _ hx)
    have ho := h o List.mem_cons_self
    simp only [statuses, List.mem_cons, List.not_mem_nil, or_false] at ho
    rcases ho with ho | ho | ho
    · simp [ho, hne.1, hne.2.1]
      omega
    · simp [ho, hne.1.symm, hne.2.2]
      omega
    · simp [ho, hne.2.1.symm, hne.2.2.symm]
      omega

theorem outcome_status {row : Row} (h : row.status ∈ statuses) (found : Option PlanCheck) : (outcome row found).status = row.status := by
  have hempty : [] ∉ statuses := by
    unfold statuses lit
    decide
  refine if_neg fun hnil => hempty ?_
  rwa [hnil] at h

/-- Every check is reported once exactly when the spare checks of each number are not taken by rows with a VDOM. -/
theorem reports_once_iff {u : Unicode} {dialect : Dialect} {raw : Raw} {result : HardenAllResult}
    (h : Returned selected (normalize_rows u dialect raw)) (hrun : execute_plan u dialect raw selected = .ok result) :
    ReportsOnce selected (normalize_rows u dialect raw) result ↔ Spare selected (normalize_rows u dialect raw) := by
  have hstatus := normalized_status u dialect raw
  rw [execute_plan] at hrun
  generalize normalize_rows u dialect raw = rows at *
  obtain ⟨hlength, hget⟩ := reattach_get h
  split at hrun
  · cases hrun
  · cases hrun
    have hids : ∀ missing : List PlanCheck, (missing.map noResult).map CheckOutcome.result_id =
        missing.map fun c => some c.result_id := fun missing => by rw [List.map_map]; rfl
    rw [← spare_iff h]
    constructor
    · intro hreports
      have hperm := hreports.once
      rw [List.map_append, hids] at hperm
      exact (List.nodup_append.mp (hperm.nodup_iff.mpr (ids_nodup h))).1
    · intro hnodup
      constructor
      · rw [List.map_append, hids]
        exact results_perm h hnodup
      · intro i hi hvdom
        obtain ⟨c, hc, hci, hnumber, hsame⟩ := foundAt_some h i hi
        refine ⟨c, hc, Prod.ext hnumber (hsame hvdom), ?_⟩
        dsimp only
        rw [List.getElem?_append_left (by omega), hget i hi, hci]
        rfl
      · intro c hc
        dsimp only at hc ⊢
        rw [← hlength, List.drop_left] at hc
        rw [← hlength, List.take_left]
        obtain ⟨d, hd, hcd⟩ := List.mem_map.mp hc
        have hid : some d.result_id = some c.result_id := congrArg CheckOutcome.result_id hcd
        refine List.nodup_cons.mpr ⟨fun hmem => ?_, hnodup.sublist (List.filter_sublist.map _)⟩
        rw [← hid] at hmem
        exact of_decide_eq_true (List.mem_filter.mp hd).2 ((List.filter_sublist.map _).subset hmem)
      · have hall : ∀ o ∈ _reattach_result_ids rows selected, o.status ∈ statuses := by
          intro o ho
          obtain ⟨i, hi, rfl⟩ := List.mem_iff_getElem.mp ho
          obtain ⟨_, heq⟩ := List.getElem?_eq_some_iff.mp (hget i (by omega))
          rw [heq, outcome_status (hstatus _ (List.getElem_mem _))]
          exact hstatus _ (List.getElem_mem _)
        have hcount := count_statuses hall
        simp only [List.length_append, List.length_map]
        omega

end

/-! ## A check of two VDOMs -/

def root : PlanCheck := ⟨1, ['1'], none, some ['r']⟩

def dmz : PlanCheck := ⟨2, ['1'], none, some ['d']⟩

def fixed (vdom : Option Str) : RawRow :=
  ⟨some ['1'], none, none, vdom, some (lit "success"), true, none, none, none, none, none, none, []⟩

/-- A row for each VDOM, and a row for one VDOM with one that names none -/
def named : Raw := ⟨[fixed (some ['r']), fixed (some ['d'])], false, []⟩

def mixed : Raw := ⟨[fixed (some ['r']), fixed none], false, []⟩

def row (vdom : Option Str) : Row := ⟨['1'], none, vdom, lit "success", none, []⟩

theorem named_rows : normalize_rows ascii .status named = [row (some ['r']), row (some ['d'])] := by
  with_unfolding_all decide

theorem mixed_rows : normalize_rows ascii .status mixed = [row (some ['r']), row none] := by
  with_unfolding_all decide

theorem returned_of_two {a b : Row} (ha : a.check_number = ['1']) (hb : b.check_number = ['1'])
    (hknown : ∀ r ∈ [a, b], r.vdom ≠ none → keyed [root, dmz] r.key ≠ [])
    (honce : (([a, b].filter fun r => r.vdom ≠ none).map Row.key).Nodup) : Returned [root, dmz] [a, b] where
  distinct := by decide
  few := by
    intro number
    by_cases h : number = ['1']
    · subst h
      have htwo : (numbered [root, dmz] ['1']).length = 2 := by decide
      rw [htwo]
      exact List.countP_le_length
    · simp [ha, hb, Ne.symm h]
  known := hknown
  once := honce

theorem named_returned : Returned [root, dmz] (normalize_rows ascii .status named) := by
  rw [named_rows]
  exact returned_of_two rfl rfl (by with_unfolding_all decide) (by with_unfolding_all decide)

theorem mixed_returned : Returned [root, dmz] (normalize_rows ascii .status mixed) := by
  rw [mixed_rows]
  exact returned_of_two rfl rfl (by with_unfolding_all decide) (by with_unfolding_all decide)

theorem named_once : ∃ result, execute_plan ascii .status named [root, dmz] = .ok result ∧
    ReportsOnce [root, dmz] (normalize_rows ascii .status named) result := by
  refine ⟨_, rfl, (reports_once_iff named_returned rfl).mpr ?_⟩
  rw [named_rows]
  intro number c hc
  have hplain : plain [row (some ['r']), row (some ['d'])] number = 0 := by simp [plain, row, Row.key]
  simp [hplain] at hc

/-- The row without a VDOM is attached to the check that the other row is attached to. -/
theorem mixed_twice : Returned [root, dmz] (normalize_rows ascii .status mixed) ∧
    ∃ result, execute_plan ascii .status mixed [root, dmz] = .ok result ∧
      result.results.map CheckOutcome.result_id = [some 1, some 1, some 2] ∧
        ¬ReportsOnce [root, dmz] (normalize_rows ascii .status mixed) result := by
  refine ⟨mixed_returned, _, rfl, by with_unfolding_all decide, fun h => ?_⟩
  have hlength := h.once.length_eq
  revert hlength
  with_unfolding_all decide

end HardenAll
