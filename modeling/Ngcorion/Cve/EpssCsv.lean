import Ngcorion.Dict
import Ngcorion.Text

/-!
# The scores of EPSS as a CSV text

A comment line with the date of the scores, then `cve,epss,percentile` and one row for each CVE. What an export writes is read
back, where the names have neither commas nor quotes nor line ends.
-/
namespace EpssCsv

open Text

/-! ## The reader of `csv` -/

inductive Mode where
  | startRecord | startField | inField | inQuoted | quoteInQuoted
  deriving DecidableEq

structure Reader where
  mode : Mode
  field : Str
  fields : List Str

def Reader.start : Reader := ⟨.startRecord, [], []⟩

/-- `parse_save_field` -/
def Reader.save (r : Reader) (mode : Mode) : Reader := ⟨mode, [], r.fields ++ [r.field]⟩

def Reader.add (r : Reader) (mode : Mode) (c : Char) : Reader := ⟨mode, r.field ++ [c], r.fields⟩

/-- `parse_process_char`; at the end of a line there is no character. Lines have no line ends. -/
def process (r : Reader) : Option Char → Reader
  | none =>
    match r.mode with
    | .startRecord | .inQuoted => r
    | .startField | .inField | .quoteInQuoted => r.save .startRecord
  | some c =>
    match r.mode with
    | .startRecord | .startField =>
      if c = '"' then { r with mode := .inQuoted } else if c = ',' then r.save .startField else r.add .inField c
    | .inField => if c = ',' then r.save .startField else r.add .inField c
    | .inQuoted => if c = '"' then { r with mode := .quoteInQuoted } else r.add .inQuoted c
    | .quoteInQuoted =>
      if c = '"' then r.add .inQuoted c else if c = ',' then r.save .startField else r.add .inField c

def readLine (r : Reader) (line : Str) : Reader := process (line.foldl (fun r c => process r (some c)) r) none

/-- The records of lines; a quoted field goes on in the next line. -/
def recordsFrom (r : Reader) : List Str → List (List Str)
  | [] => if r.field ≠ [] ∨ r.mode = .inQuoted then [r.fields ++ [r.field]] else []
  | line :: lines =>
    if (readLine r line).mode = .startRecord then (readLine r line).fields :: recordsFrom .start lines
    else recordsFrom (readLine r line) lines

/-- A row of `csv.DictReader` -/
def dictRow (names row : List Str) : List (Str × Option Str) :=
  let cells : List (Str × Option Str) := names.zip (row.map some) ++ (names.drop row.length).map fun name => (name, none)
  cells.foldl (fun d e => Dict.set d e.1 e.2) []

section

variable {F : Type} (float : Str → Option F)

/-- A row of the result; one that has no numbers is left out. -/
def scoreRow (d : List (Str × Option Str)) : Option (Option Str × F × F) := do
  let cve ← Dict.get d (lit "cve")
  let epss ← float (← ← Dict.get d (lit "epss"))
  let percentile ← float (← ← Dict.get d (lit "percentile"))
  return (cve, epss, percentile)

def dictRows : List (List Str) → List (List (Str × Option Str))
  | [] => []
  | names :: rows => (rows.filter fun row => row ≠ []).map (dictRow names)

/-- `score_date` of the comment line -/
def dateOf (line : Str) : Option Str :=
  (((line.dropWhile (· = '#')).splitOn ',').filter (startsWith (lit "score_date:"))).getLast?.map fun part =>
    ((part.drop (lit "score_date:").length).take 10)

structure Scores (F : Type) where
  date : Option Str
  rows : List (Option Str × F × F)

def parse_epss_csv (text : Str) : Scores F :=
  let lines := splitlines text
  let comment := lines.head?.filter (startsWith ['#'])
  ⟨comment.bind dateOf,
    (dictRows (recordsFrom .start (if comment.isSome then lines.tail else lines))).filterMap (scoreRow float)⟩

end

/-! ## What an export writes -/

section

variable {F : Type} (repr : F → Str)

/-- A row as `build` writes it; a percentile that is not known is `None`. -/
def rowText (e : Str × F × Option F) : Str := e.1 ++ ',' :: repr e.2.1 ++ ',' :: (e.2.2.map repr).getD (lit "None")

def epssText (date : Str) (rows : List (Str × F × Option F)) : Str :=
  lit "#score_date:" ++ date ++ '\n' :: lit "cve,epss,percentile" ++ '\n' :: rows.flatMap fun e => rowText repr e ++ ['\n']

end

/-! ## Reading what was written -/

/-- A field that stands in a row as it is -/
structure PlainField (s : Str) : Prop where
  comma : ',' ∉ s
  quote : s.head? ≠ some '"'
  line : ∀ c ∈ s, isLineBreak c = false

theorem inField_chars {s f : Str} {fs : List Str} (hs : ',' ∉ s) :
    s.foldl (fun r c => process r (some c)) ⟨.inField, f, fs⟩ = ⟨.inField, f ++ s, fs⟩ := by
  induction s generalizing f with
  | nil => simp
  | cons c s ih =>
    simp only [List.mem_cons, not_or] at hs
    have hne : c ≠ ',' := fun h => hs.1 h.symm
    have hstep : process ⟨.inField, f, fs⟩ (some c) = ⟨.inField, f ++ [c], fs⟩ := by simp [process, hne, Reader.add]
    rw [List.foldl_cons, hstep, ih hs.2, List.append_assoc]
    rfl

/-- The reader at the beginning of a field -/
def Opens (mode : Mode) : Prop := mode = .startRecord ∨ mode = .startField

theorem field_chars {s : Str} (hs : PlainField s) {mode : Mode} (hmode : Opens mode) {fs : List Str} :
    s.foldl (fun r c => process r (some c)) ⟨mode, [], fs⟩ = ⟨if s = [] then mode else .inField, s, fs⟩ := by
  cases s with
  | nil => rfl
  | cons c s =>
    have hcomma := hs.comma
    simp only [List.mem_cons, not_or] at hcomma
    have hne : c ≠ ',' := fun h => hcomma.1 h.symm
    have hquote : c ≠ '"' := fun h => hs.quote (by rw [h]; rfl)
    have hstep : process ⟨mode, [], fs⟩ (some c) = ⟨.inField, [c], fs⟩ := by
      rcases hmode with rfl | rfl <;> simp [process, hne, hquote, Reader.add]
    rw [List.foldl_cons, hstep, inField_chars hcomma.2]
    simp

/-- A field and the comma behind it -/
theorem field_comma {s : Str} (hs : PlainField s) {mode : Mode} (hmode : Opens mode) {fs : List Str} (rest : Str) :
    (s ++ ',' :: rest).foldl (fun r c => process r (some c)) ⟨mode, [], fs⟩ =
      rest.foldl (fun r c => process r (some c)) ⟨.startField, [], fs ++ [s]⟩ := by
  have hstep : process ⟨if s = [] then mode else .inField, s, fs⟩ (some ',') = ⟨.startField, [], fs ++ [s]⟩ := by
    by_cases h : s = []
    · subst h
      rcases hmode with rfl | rfl <;> simp [process, Reader.save]
    · simp [process, h, Reader.save]
  rw [List.foldl_append, field_chars hs hmode, List.foldl_cons, hstep]

theorem readLine_row {a b c : Str} (ha : PlainField a) (hb : PlainField b) (hc : PlainField c) :
    readLine .start (a ++ ',' :: b ++ ',' :: c) = ⟨.startRecord, [], [a, b, c]⟩ := by
  have hlast : process ⟨if c = [] then .startField else .inField, c, [a, b]⟩ none = ⟨.startRecord, [], [a, b, c]⟩ := by
    by_cases h : c = []
    · subst h
      rfl
    · simp [process, h, Reader.save]
  rw [readLine, Reader.start, List.append_assoc, List.cons_append, field_comma ha (.inl rfl), List.nil_append,
    field_comma hb (.inr rfl), field_chars hc (.inr rfl)]
  exact hlast

section

variable {F : Type} {float : Str → Option F} {repr : F → Str}

/-- A row whose name is plain, and whose percentile is known -/
structure PlainRow (e : Str × F × Option F) : Prop where
  name : PlainField e.1
  known : e.2.2.isSome = true

def scoreOf (e : Str × F × Option F) : Option (Option Str × F × F) := e.2.2.map fun percentile => (some e.1, e.2.1, percentile)

theorem records_rows (hrepr : ∀ x, PlainField (repr x)) {rows : List (Str × F × Option F)} (hrows : ∀ e ∈ rows, PlainRow e) :
    recordsFrom .start (splitlines (rows.flatMap fun e => rowText repr e ++ ['\n'])) =
      rows.map fun e => [e.1, repr e.2.1, (e.2.2.map repr).getD (lit "None")] := by
  induction rows with
  | nil => rfl
  | cons e rows ih =>
    obtain ⟨name, epss, percentile⟩ := e
    obtain ⟨hname, hknown⟩ := hrows _ List.mem_cons_self
    cases percentile with
    | none => cases hknown
    | some percentile =>
      have hcomma : isLineBreak ',' = false := by decide
      have hline : ∀ c ∈ rowText repr (name, epss, some percentile), isLineBreak c = false := by
        intro c hc
        simp only [rowText, Option.map_some, Option.getD_some, List.mem_append, List.mem_cons] at hc
        rcases hc with (hc | rfl | hc) | rfl | hc
        · exact hname.line c hc
        · exact hcomma
        · exact (hrepr _).line c hc
        · exact hcomma
        · exact (hrepr _).line c hc
      have hread := readLine_row hname (hrepr epss) (hrepr percentile)
      rw [List.flatMap_cons, List.append_assoc, List.singleton_append, splitlines_line hline, recordsFrom, rowText]
      simp only [Option.map_some, Option.getD_some, hread, if_true]
      rw [ih fun x hx => hrows x (List.mem_cons_of_mem _ hx), List.map_cons]
      rfl

theorem dictRow_three (a b c : Str) : dictRow [lit "cve", lit "epss", lit "percentile"] [a, b, c] =
    [(lit "cve", some a), (lit "epss", some b), (lit "percentile", some c)] := by
  unfold lit
  simp [dictRow, Dict.set]

theorem scoreRow_three (a b c : Str) : scoreRow float (dictRow [lit "cve", lit "epss", lit "percentile"] [a, b, c]) =
    (float b).bind fun epss => (float c).map fun percentile => (some a, epss, percentile) := by
  have hepss : lit "cve" ≠ lit "epss" := by unfold lit; decide
  have hpercentile : lit "cve" ≠ lit "percentile" := by unfold lit; decide
  have hlast : lit "epss" ≠ lit "percentile" := by unfold lit; decide
  rw [dictRow_three]
  simp only [scoreRow, Dict.get, if_true, if_neg hepss, if_neg hpercentile, if_neg hlast, Option.bind_eq_bind,
    Option.bind_some]
  cases float b with
  | none => rfl
  | some epss => cases float c <;> rfl

/-- The rows that were written are read back. -/
theorem parse_written (hrepr : ∀ x, PlainField (repr x)) (hfloat : ∀ x, float (repr x) = some x) {date : Str}
    (hdate : ∀ c ∈ date, isLineBreak c = false) {rows : List (Str × F × Option F)} (hrows : ∀ e ∈ rows, PlainRow e) :
    (parse_epss_csv float (epssText repr date rows)).rows = rows.filterMap scoreOf := by
  have hheader : lit "cve,epss,percentile" = lit "cve" ++ ',' :: lit "epss" ++ ',' :: lit "percentile" := by unfold lit; rfl
  have hplain : ∀ s ∈ [lit "cve", lit "epss", lit "percentile"], PlainField s := by
    unfold lit
    intro s hs
    simp only [List.mem_cons, List.not_mem_nil, or_false] at hs
    rcases hs with rfl | rfl | rfl <;> exact ⟨by decide, by decide, forall_mem_of_all (by decide)⟩
  have hcommentLine : ∀ c ∈ lit "#score_date:" ++ date, isLineBreak c = false := by
    intro c hc
    have hword : ∀ c ∈ lit "#score_date:", isLineBreak c = false := forall_mem_of_all
      (by with_unfolding_all decide)
    exact (List.mem_append.mp hc).elim (hword c) (hdate c)
  have hheaderLine : ∀ c ∈ lit "cve,epss,percentile", isLineBreak c = false := forall_mem_of_all
    (by with_unfolding_all decide)
  have hlines : splitlines (epssText repr date rows) = (lit "#score_date:" ++ date) :: lit "cve,epss,percentile" ::
      splitlines (rows.flatMap fun e => rowText repr e ++ ['\n']) := by
    rw [epssText, List.append_assoc, List.cons_append, splitlines_line hcommentLine, splitlines_line hheaderLine]
  have hcomment : startsWith ['#'] (lit "#score_date:" ++ date) = true := by
    unfold lit
    rfl
  have hfirst : readLine .start (lit "cve,epss,percentile") = ⟨.startRecord, [], [lit "cve", lit "epss", lit "percentile"]⟩ := by
    rw [hheader]
    exact readLine_row (hplain _ (by simp)) (hplain _ (by simp)) (hplain _ (by simp))
  have hfull : ∀ row ∈ rows.map fun e => [e.1, repr e.2.1, (e.2.2.map repr).getD (lit "None")], decide (row ≠ []) = true := by
    intro row hrow
    obtain ⟨e, -, rfl⟩ := List.mem_map.mp hrow
    rfl
  simp only [parse_epss_csv, hlines, List.head?_cons, Option.filter_some, hcomment, if_true, Option.isSome_some, List.tail_cons]
  rw [recordsFrom, hfirst, if_pos rfl, records_rows hrepr hrows, dictRows, List.filter_eq_self.mpr hfull, List.map_map,
    List.filterMap_map]
  refine List.filterMap_congr fun e he => ?_
  obtain ⟨percentile, hpercentile⟩ := Option.isSome_iff_exists.mp (hrows e he).known
  simp [scoreRow_three, scoreOf, hpercentile, hfloat]

end

end EpssCsv
