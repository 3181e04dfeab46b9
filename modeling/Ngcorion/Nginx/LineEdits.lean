import Ngcorion.Nginx.Commit
import Ngcorion.StableSort

/-!
# Line edits

The operations of a commit are applied one after the other, from the last line up. The result is the edit of all lines
at once: around each line what was recorded before and after it, and in its place its replacement.
-/
namespace LineEdits

open Text Commit

/-! ## Recording -/

/-- The operations that the methods of the editor record, on a line that `_line` has read -/
inductive Recorded (original : Str) : Op → Prop where
  /-- `comment` and `replace` -/
  | replace (line : Nat) (text : Str) (pos : 0 < line) (here : line ≤ (lines original).length) :
      Recorded original ⟨line, 0, .replace, [text], pos⟩
  /-- `insert_top` -/
  | insert_top (line : Nat) (texts : List Str) (pos : 0 < line) (here : line ≤ (lines original).length) :
      Recorded original ⟨line, 1, .after, texts, pos⟩
  /-- `insert_before` -/
  | insert_before (line : Nat) (texts : List Str) (pos : 0 < line) (here : line ≤ (lines original).length) :
      Recorded original ⟨line, 2, .before, texts, pos⟩

theorem Recorded.line_le {original : Str} {op : Op} (h : Recorded original op) : op.line ≤ (lines original).length := by
  cases h <;> assumption

theorem Recorded.payload {original : Str} {op : Op} (h : Recorded original op) (hkind : op.kind = .replace) :
    ∃ text, op.payload = [text] := by
  cases h with
  | replace line text => exact ⟨text, rfl⟩
  | insert_top => cases hkind
  | insert_before => cases hkind

/-- At most one distinct replacement for each line -/
def OneReplace (ops : List Op) : Prop :=
  ∀ a ∈ ops, ∀ b ∈ ops, a.kind = .replace → b.kind = .replace → a.line = b.line → a = b

/-! ## The simultaneous edit -/

section

variable (ops : List Op)

def ofKind (kind : Kind) (line : Nat) : List Op := ops.filter fun op => op.kind = kind ∧ op.line = line

/-- The payloads of one kind for a line, in the order in which they were recorded -/
def payloads (kind : Kind) (line : Nat) : List (List Str) := (ofKind ops kind line).map (·.payload)

/-- A line and what is recorded for it; of several insertions at one place the last one comes first. -/
def edited (line : Nat) (text : Str) : List Str :=
  (payloads ops .before line).reverse.flatten ++ (payloads ops .replace line).head?.getD [text] ++
    (payloads ops .after line).reverse.flatten

def editedFrom (line : Nat) : List Str → List Str
  | [] => []
  | text :: rest => edited ops line text ++ editedFrom (line + 1) rest

/-- The edit of all lines at once, by the distinct operations -/
def simultaneous (texts : List Str) : List Str := editedFrom ops 1 texts

end

/-! ## One line -/

theorem foldl_before {line : Nat} {ops : List Op} (hops : ∀ op ∈ ops, op.kind = .before ∧ op.line = line)
    (pre rest : List Str) (hpre : pre.length + 1 = line) :
    ops.foldl applyOp (pre ++ rest) = pre ++ (ops.map (·.payload)).reverse.flatten ++ rest := by
  induction ops generalizing rest with
  | nil => simp
  | cons op ops ih =>
    obtain ⟨hkind, hline⟩ := hops op (by simp)
    have hlen : op.line - 1 = pre.length := by omega
    have happly : applyOp (pre ++ rest) op = pre ++ (op.payload ++ rest) := by simp [applyOp, hkind, hlen]
    rw [List.foldl_cons, happly, ih (fun o ho => hops o (by simp [ho]))]
    simp

theorem foldl_after {line : Nat} {ops : List Op} (hops : ∀ op ∈ ops, op.kind = .after ∧ op.line = line)
    (pre rest : List Str) (hpre : pre.length = line) :
    ops.foldl applyOp (pre ++ rest) = pre ++ (ops.map (·.payload)).reverse.flatten ++ rest := by
  induction ops generalizing rest with
  | nil => simp
  | cons op ops ih =>
    obtain ⟨hkind, hline⟩ := hops op (by simp)
    have hlen : op.line = pre.length := by omega
    have happly : applyOp (pre ++ rest) op = pre ++ (op.payload ++ rest) := by simp [applyOp, hkind, hlen]
    rw [List.foldl_cons, happly, ih (fun o ho => hops o (by simp [ho]))]
    simp

theorem apply_replace {op : Op} {text : Str} (hkind : op.kind = .replace) (hpayload : op.payload = [text])
    (pre post : List Str) (old : Str) (hpre : pre.length + 1 = op.line) :
    applyOp (pre ++ old :: post) op = pre ++ text :: post := by
  have hlen : op.line - 1 = pre.length := by omega
  have hdrop : (pre ++ old :: post).drop op.line = post := by simp [← hpre, ← List.drop_drop]
  simp [applyOp, hkind, hlen, hpayload, hdrop]

theorem mem_ofKind (ops : List Op) (kind : Kind) (line : Nat) :
    ∀ op ∈ ofKind ops kind line, op.kind = kind ∧ op.line = line := by
  intro op hop
  simpa using List.of_mem_filter hop

/-- There is one replacement of a line or none. -/
theorem replace_cases {ops : List Op} (hone : OneReplace ops) (hdup : ops.Nodup) (line : Nat) :
    ofKind ops .replace line = [] ∨
      ∃ op ∈ ops, op.kind = .replace ∧ op.line = line ∧
        ofKind ops .replace line = [op] := by
  have hnodup : (ofKind ops .replace line).Nodup := hdup.filter _
  have hmem := mem_ofKind ops .replace line
  have hsub : ∀ op ∈ ofKind ops .replace line, op ∈ ops :=
    fun op hop => List.mem_of_mem_filter hop
  cases hR : ofKind ops .replace line with
  | nil => exact .inl rfl
  | cons a rest =>
    rw [hR] at hnodup hmem hsub
    have ha := hmem a (by simp)
    refine .inr ⟨a, hsub a (by simp), ha.1, ha.2, ?_⟩
    cases rest with
    | nil => rfl
    | cons b rest =>
      have hb := hmem b (by simp)
      have hab := hone a (hsub a (by simp)) b (hsub b (by simp)) ha.1 hb.1 (ha.2.trans hb.2.symm)
      simp [hab] at hnodup

/-- The operations of one line, replacement first, turn the line into its edit. -/
theorem foldl_line {ops : List Op} {line : Nat} (hone : OneReplace ops) (hdup : ops.Nodup)
    (hrec : ∀ op ∈ ops, op.kind = .replace → ∃ text, op.payload = [text])
    (pre post : List Str) (old : Str) (hpre : pre.length + 1 = line) :
    (ofKind ops .replace line ++
      (ofKind ops .after line ++
        ofKind ops .before line)).foldl applyOp (pre ++ old :: post) =
      pre ++ edited ops line old ++ post := by
  obtain ⟨new, hnew, hreplace⟩ : ∃ new, (payloads ops .replace line).head?.getD [old] = [new] ∧
      (ofKind ops .replace line).foldl applyOp (pre ++ old :: post) =
        pre ++ new :: post := by
    rcases replace_cases hone hdup line with hR | ⟨op, hop, hkind, hline, hR⟩
    · exact ⟨old, by simp [payloads, hR], by simp [hR]⟩
    · obtain ⟨text, htext⟩ := hrec op hop hkind
      exact ⟨text, by simp [payloads, hR, htext], by simp [hR, apply_replace hkind htext pre post old (hpre.trans hline.symm)]⟩
  have hafter := foldl_after (mem_ofKind ops .after line) (pre ++ [new]) post
    (by simpa using hpre)
  have hbefore := foldl_before (mem_ofKind ops .before line) pre
    (new :: ((payloads ops .after line).reverse.flatten ++ post)) hpre
  rw [List.foldl_append, List.foldl_append, hreplace, ← List.singleton_append, ← List.append_assoc, hafter]
  simp only [payloads, List.append_assoc, List.nil_append, List.cons_append] at hbefore ⊢
  rw [hbefore, edited, hnew]
  simp [payloads]

/-! ## All lines -/

instance : IsTrans Op later := ⟨fun a b c => by simp only [later]; omega⟩

instance : Std.Total later := ⟨fun a b => by simp only [later]; omega⟩

theorem nodup_eraseDups {α : Type} [DecidableEq α] (l : List α) : l.eraseDups.Nodup := by
  induction hn : l.length using Nat.strong_induction_on generalizing l with
  | _ n ih =>
    cases l with
    | nil => simp
    | cons a l =>
      have hlen : (l.filter fun b => !b == a).length < n := by
        have := List.length_filter_le (fun b => !b == a) l
        simp only [List.length_cons] at hn
        omega
      rw [List.eraseDups_cons, List.nodup_cons]
      exact ⟨by simp [List.mem_eraseDups], ih _ hlen _ rfl⟩

/-- Operations of one kind on one line may stand either way round. -/
theorem later_of_kind {original : Str} {a b : Op} (ha : Recorded original a) (hb : Recorded original b)
    (hkind : a.kind = b.kind) (hline : a.line = b.line) : later a b := by
  cases ha <;> cases hb <;> simp_all [later]

/-- On one line the replacement comes first, then what goes after the line. -/
theorem front {original : Str} {a b : Op} (ha : Recorded original a) (hb : Recorded original b)
    (hline : a.line = b.line) (hab : later a b) :
    (b.kind = .replace → a.kind = .replace) ∧ (b.kind = .after → a.kind ≠ .replace → a.kind = .after) := by
  cases ha <;> cases hb <;> simp_all [later]

/-- The sorted operations of one line are its replacement, what goes after it and what goes before it. -/
theorem sorted_line {original : Str} {ops : List Op} (hrec : ∀ op ∈ ops, Recorded original op) (line : Nat) :
    (ops.insertionSort later).filter (fun op => op.line = line) =
      ofKind ops .replace line ++ (ofKind ops .after line ++ ofKind ops .before line) := by
  have hmem : ∀ op ∈ ops.insertionSort later, Recorded original op := fun op hop =>
    hrec op ((List.mem_insertionSort later).mp hop)
  -- sorting keeps the operations of one kind in their order
  have hstable (kind : Kind) :
      ((ops.insertionSort later).filter (fun op => op.line = line)).filter (fun op => op.kind = kind) =
        ofKind ops kind line := by
    have hfilter := StableSort.filter_insertionSort later (l := ops) (fun op => op.kind = kind ∧ op.line = line)
      fun a b ha hb hPa hPb => by
        simp only [decide_eq_true_eq] at hPa hPb
        exact later_of_kind (hrec a ha) (hrec b hb) (hPa.1.trans hPb.1.symm) (hPa.2.trans hPb.2.symm)
    simpa [ofKind, List.filter_filter] using hfilter
  have hsorted := (List.pairwise_insertionSort later ops).filter fun op => op.line = line
  generalize hS : (ops.insertionSort later).filter (fun op => op.line = line) = S at hstable hsorted ⊢
  have hS' : ∀ op ∈ S, Recorded original op ∧ op.line = line := by
    intro op hop
    rw [← hS] at hop
    exact ⟨hmem op (List.mem_of_mem_filter hop), by simpa using List.of_mem_filter hop⟩
  have hfirst := StableSort.filter_append_filter (P := fun op => op.kind = .replace) hsorted fun a b ha hb hab hP => by
    simp only [decide_eq_true_eq] at hP ⊢
    exact (front (hS' a ha).1 (hS' b hb).1 ((hS' a ha).2.trans (hS' b hb).2.symm) hab).1 hP
  have hsecond := StableSort.filter_append_filter (P := fun op => op.kind = .after)
    (hsorted.filter fun op => !decide (op.kind = .replace)) fun a b ha hb hab hP => by
      simp only [decide_eq_true_eq] at hP ⊢
      have ha' := hS' a (List.mem_of_mem_filter ha)
      have hb' := hS' b (List.mem_of_mem_filter hb)
      exact (front ha'.1 hb'.1 (ha'.2.trans hb'.2.symm) hab).2 hP (by simpa using List.of_mem_filter ha)
  rw [← hfirst, ← hsecond, List.filter_filter, List.filter_filter, ← hstable, ← hstable, ← hstable]
  congr 2 <;> refine List.filter_congr fun op _ => ?_
  · cases op.kind <;> decide
  · cases op.kind <;> decide

/-- The operations below a line leave it and what stands above it as they are. -/
theorem foldl_below {original : Str} {ops : List Op} (hone : OneReplace ops) (hdup : ops.Nodup)
    (hrec : ∀ op ∈ ops, Recorded original op) (pre post : List Str) (hall : pre ++ post = lines original) :
    ((ops.insertionSort later).filter (fun op => pre.length < op.line)).foldl applyOp (pre ++ post) =
      pre ++ editedFrom ops (pre.length + 1) post := by
  have hmem : ∀ op ∈ ops.insertionSort later, Recorded original op := fun op hop =>
    hrec op ((List.mem_insertionSort later).mp hop)
  induction post generalizing pre with
  | nil =>
    have hnone : (ops.insertionSort later).filter (fun op => pre.length < op.line) = [] := by
      refine List.filter_eq_nil_iff.mpr fun op hop => ?_
      have := (hmem op hop).line_le
      rw [← hall] at this
      simpa using this
    simp [hnone, editedFrom]
  | cons old post ih =>
    have hi := ih (pre ++ [old]) (by simpa using hall)
    simp only [List.length_append, List.length_singleton] at hi
    have hsplit : (ops.insertionSort later).filter (fun op => pre.length < op.line) =
        (ops.insertionSort later).filter (fun op => pre.length + 1 < op.line) ++
          (ops.insertionSort later).filter (fun op => op.line = pre.length + 1) := by
      have hcut := StableSort.filter_append_filter (P := fun op => pre.length + 1 < op.line)
        ((List.pairwise_insertionSort later ops).filter fun op => pre.length < op.line) fun a b _ _ hab hP => by
          simp only [later, decide_eq_true_eq] at hab hP ⊢
          omega
      rw [← hcut, List.filter_filter, List.filter_filter]
      congr 1 <;> refine List.filter_congr fun op _ => ?_
      · simp only [← Bool.decide_and, decide_eq_decide]
        omega
      · simp only [← Bool.decide_and, ← decide_not, decide_eq_decide]
        omega
    have hline := foldl_line hone hdup (fun op hop => (hrec op hop).payload) pre (editedFrom ops (pre.length + 2) post)
      old rfl
    rw [hsplit, List.foldl_append, sorted_line hrec, ← List.singleton_append, ← List.append_assoc, hi,
      List.append_assoc, List.singleton_append, hline]
    simp [editedFrom]

/-- What a commit makes of a text is the edit of all its lines at once. -/
theorem commit_line_exact (original : Str) (ops : List Op) (hrec : ∀ op ∈ ops, Recorded original op)
    (hone : OneReplace ops) : newText original ops = unlines (simultaneous ops.eraseDups (lines original)) := by
  have hrec' : ∀ op ∈ ops.eraseDups, Recorded original op := fun op hop => hrec op (List.mem_eraseDups.mp hop)
  have hone' : OneReplace ops.eraseDups := fun a ha b hb =>
    hone a (List.mem_eraseDups.mp ha) b (List.mem_eraseDups.mp hb)
  have hall : (ops.eraseDups.insertionSort later).filter (fun op => 0 < op.line) = ops.eraseDups.insertionSort later :=
    List.filter_eq_self.mpr fun op _ => by simpa using op.line_pos
  have hfold := foldl_below hone' (nodup_eraseDups ops) hrec' [] (lines original) rfl
  rw [List.length_nil, hall] at hfold
  rw [newText]
  exact congrArg unlines hfold

theorem commit_line_exact_four :
    newText (lit "a\nb") [⟨1, 1, .after, [lit "x"], by decide⟩, ⟨2, 2, .before, [lit "y"], by decide⟩,
      ⟨1, 0, .replace, [lit "c"], by decide⟩, ⟨1, 1, .after, [lit "x"], by decide⟩] = lit "c\nx\ny\nb" := by
  refine (commit_line_exact _ _ ?_ ?_).trans (by with_unfolding_all decide)
  · simp only [List.forall_mem_cons]
    exact ⟨.insert_top _ _ _ (by with_unfolding_all decide), .insert_before _ _ _ (by with_unfolding_all decide),
      .replace _ _ _ (by with_unfolding_all decide), .insert_top _ _ _ (by with_unfolding_all decide), by simp⟩
  · simp [OneReplace]

end LineEdits
