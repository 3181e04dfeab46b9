import Ngcorion.Text

/-!
# Comma-separated values

The writer quotes a field that holds a comma, a quote or a line end; a quote in it is doubled. The reader goes over the
characters of a text. What the writer writes is read back, whatever the fields hold.
-/
namespace Csv

open Text

/-! ## Writer -/

def special (c : Char) : Bool := c = ',' || c = '"' || c = '\n' || c = '\r'

def doubled (c : Char) : Str := if c = '"' then ['"', '"'] else [c]

def quote (s : Str) : Str := '"' :: s.flatMap doubled ++ ['"']

def fieldText (s : Str) : Str := if s.any special then quote s else s

/-- A record on its line; that of one empty field would be an empty line. -/
def recordText (fields : List Str) : Str :=
  (if fields = [[]] then quote [] else [','].intercalate (fields.map fieldText)) ++ ['\n']

/-! ## Reader -/

inductive Mode where
  | startRecord | startField | inField | inQuoted | quoteInQuoted | afterReturn
  deriving DecidableEq

structure Reader where
  mode : Mode
  field : Str
  fields : List Str
  records : List (List Str)

def Reader.start : Reader := ⟨.startRecord, [], [], []⟩

def Reader.add (r : Reader) (mode : Mode) (c : Char) : Reader := { r with mode := mode, field := r.field ++ [c] }

def Reader.save (r : Reader) : Reader := { r with mode := .startField, field := [], fields := r.fields ++ [r.field] }

/-- The record ends with its last field. -/
def Reader.finish (r : Reader) (c : Char) : Reader :=
  ⟨if c = '\r' then .afterReturn else .startRecord, [], [], r.records ++ [r.fields ++ [r.field]]⟩

def isEnd (c : Char) : Bool := c = '\n' || c = '\r'

/-- A character outside quotes -/
def Reader.plain (r : Reader) (c : Char) : Reader :=
  if c = ',' then r.save else if isEnd c then r.finish c else r.add .inField c

/-- A character with which a field begins -/
def Reader.first (r : Reader) (c : Char) : Reader := if c = '"' then { r with mode := .inQuoted } else r.plain c

/-- A character with which a record begins; an empty line has no field. -/
def Reader.begin (r : Reader) (c : Char) : Reader :=
  if isEnd c then ⟨if c = '\r' then .afterReturn else .startRecord, [], [], r.records ++ [[]]⟩ else r.first c

def process (r : Reader) (c : Char) : Reader :=
  match r.mode with
  | .startRecord => r.begin c
  | .startField => r.first c
  | .inField => r.plain c
  | .inQuoted => if c = '"' then { r with mode := .quoteInQuoted } else r.add .inQuoted c
  | .quoteInQuoted => if c = '"' then r.add .inQuoted c else r.plain c
  | .afterReturn => if c = '\n' then { r with mode := .startRecord } else r.begin c

/-- The records of a text; the last line may have no end. -/
def read (s : Str) : List (List Str) :=
  let r := s.foldl process .start
  if r.mode = .startRecord ∨ r.mode = .afterReturn then r.records else r.records ++ [r.fields ++ [r.field]]

/-! ## Reading what was written -/

theorem inField_chars {s f : Str} {fs : List Str} {rs : List (List Str)} (hs : s.any special = false) :
    s.foldl process ⟨.inField, f, fs, rs⟩ = ⟨.inField, f ++ s, fs, rs⟩ := by
  induction s generalizing f with
  | nil => simp
  | cons c s ih =>
    rw [List.any_cons, Bool.or_eq_false_iff] at hs
    have hc := hs.1
    simp only [special, Bool.or_eq_false_iff, decide_eq_false_iff_not] at hc
    have hstep : process ⟨.inField, f, fs, rs⟩ c = ⟨.inField, f ++ [c], fs, rs⟩ := by
      simp [process, Reader.plain, Reader.add, isEnd, hc]
    rw [List.foldl_cons, hstep, ih hs.2, List.append_assoc]
    rfl

theorem inQuoted_chars (s f : Str) (fs : List Str) (rs : List (List Str)) :
    (s.flatMap doubled).foldl process ⟨.inQuoted, f, fs, rs⟩ = ⟨.inQuoted, f ++ s, fs, rs⟩ := by
  induction s generalizing f with
  | nil => simp
  | cons c s ih =>
    have hstep : (doubled c).foldl process ⟨.inQuoted, f, fs, rs⟩ = ⟨.inQuoted, f ++ [c], fs, rs⟩ := by
      by_cases h : c = '"'
      · subst h
        rfl
      · simp [doubled, h, process, Reader.add]
    rw [List.flatMap_cons, List.foldl_append, hstep, ih, List.append_assoc]
    rfl

/-- The reader at the beginning of a field -/
def Opens (mode : Mode) : Prop := mode = .startRecord ∨ mode = .startField

theorem quote_chars (s : Str) {mode : Mode} (hmode : Opens mode) (fs : List Str) (rs : List (List Str)) :
    (quote s).foldl process ⟨mode, [], fs, rs⟩ = ⟨.quoteInQuoted, s, fs, rs⟩ := by
  have hopen : process ⟨mode, [], fs, rs⟩ '"' = ⟨.inQuoted, [], fs, rs⟩ := by
    rcases hmode with rfl | rfl <;> rfl
  rw [quote, List.cons_append, List.foldl_cons, hopen, List.foldl_append, inQuoted_chars, List.nil_append]
  rfl

/-- The reader after a field -/
def after (s : Str) (mode : Mode) : Mode := if s.any special then .quoteInQuoted else if s = [] then mode else .inField

theorem field_chars (s : Str) {mode : Mode} (hmode : Opens mode) (fs : List Str) (rs : List (List Str)) :
    (fieldText s).foldl process ⟨mode, [], fs, rs⟩ = ⟨after s mode, s, fs, rs⟩ := by
  unfold fieldText after
  split
  · exact quote_chars s hmode fs rs
  · rename_i hs
    cases s with
    | nil => rfl
    | cons c s =>
      rw [Bool.not_eq_true, List.any_cons, Bool.or_eq_false_iff] at hs
      have hc := hs.1
      simp only [special, Bool.or_eq_false_iff, decide_eq_false_iff_not] at hc
      have hstep : process ⟨mode, [], fs, rs⟩ c = ⟨.inField, [c], fs, rs⟩ := by
        rcases hmode with rfl | rfl <;> simp [process, Reader.begin, Reader.first, Reader.plain, Reader.add, isEnd, hc]
      rw [List.foldl_cons, hstep, inField_chars hs.2]
      rfl

theorem after_comma (s : Str) {mode : Mode} (hmode : Opens mode) (fs : List Str) (rs : List (List Str)) :
    process ⟨after s mode, s, fs, rs⟩ ',' = ⟨.startField, [], fs ++ [s], rs⟩ := by
  unfold after
  rcases hmode with rfl | rfl <;> split_ifs <;> rfl

theorem after_line (s : Str) {mode : Mode} (hmode : Opens mode) (hs : s ≠ [] ∨ mode = .startField) (fs : List Str)
    (rs : List (List Str)) : process ⟨after s mode, s, fs, rs⟩ '\n' = ⟨.startRecord, [], [], rs ++ [fs ++ [s]]⟩ := by
  unfold after
  split_ifs with hspecial hempty
  · rfl
  · rcases hs with hs | rfl
    · exact absurd hempty hs
    · rfl
  · rfl

/-- The rest of a record: fields with commas between them, and the end of the line -/
theorem fields_chars {s : Str} {fields : List Str} {mode : Mode} (hmode : Opens mode)
    (hs : s ≠ [] ∨ mode = .startField ∨ fields ≠ []) (fs : List Str) (rs : List (List Str)) :
    ([','].intercalate ((s :: fields).map fieldText) ++ ['\n']).foldl process ⟨mode, [], fs, rs⟩ =
      ⟨.startRecord, [], [], rs ++ [fs ++ s :: fields]⟩ := by
  induction fields generalizing s mode fs with
  | nil =>
    have hline : s ≠ [] ∨ mode = .startField := by simpa using hs
    rw [List.map_cons, List.map_nil, List.intercalate_singleton, List.foldl_append, field_chars s hmode, List.foldl_cons,
      after_line s hmode hline]
    rfl
  | cons t fields ih =>
    have hjoin : [','].intercalate ((s :: t :: fields).map fieldText) =
        fieldText s ++ ',' :: [','].intercalate ((t :: fields).map fieldText) := by
      simp [List.intercalate_cons_cons]
    rw [hjoin, List.append_assoc, List.cons_append, List.foldl_append, field_chars s hmode, List.foldl_cons,
      after_comma s hmode, ih (.inr rfl) (.inr (.inl rfl)), List.append_assoc]
    rfl

theorem record_chars {fields : List Str} (h : fields ≠ []) (rs : List (List Str)) :
    (recordText fields).foldl process ⟨.startRecord, [], [], rs⟩ = ⟨.startRecord, [], [], rs ++ [fields]⟩ := by
  unfold recordText
  split
  · rename_i hone
    rw [hone]
    rfl
  · rename_i hone
    obtain ⟨s, fields, rfl⟩ := List.exists_cons_of_ne_nil h
    refine fields_chars (.inl rfl) ?_ [] rs
    by_contra hno
    simp only [not_or, not_not] at hno
    exact hone (by rw [hno.1, hno.2.2])

theorem records_chars {records : List (List Str)} (h : ∀ fields ∈ records, fields ≠ []) (rs : List (List Str)) :
    (records.flatMap recordText).foldl process ⟨.startRecord, [], [], rs⟩ = ⟨.startRecord, [], [], rs ++ records⟩ := by
  induction records generalizing rs with
  | nil => simp
  | cons fields records ih =>
    rw [List.flatMap_cons, List.foldl_append, record_chars (h fields List.mem_cons_self),
      ih (fun f hf => h f (List.mem_cons_of_mem _ hf)), List.append_assoc]
    rfl

/-- What the writer writes is read back. -/
theorem read_records {records : List (List Str)} (h : ∀ fields ∈ records, fields ≠ []) :
    read (records.flatMap recordText) = records := by
  have := records_chars h []
  rw [read, Reader.start, this]
  simp

example : read (recordText [['a', '"', '\r'], [], ['b', ',', '\n']]) = [[['a', '"', '\r'], [], ['b', ',', '\n']]] := by decide

end Csv
