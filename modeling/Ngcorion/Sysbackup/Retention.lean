import Mathlib.Data.Prod.Lex
import Ngcorion.Dict
import Ngcorion.Gregorian
import Ngcorion.Selection
import Ngcorion.Sysbackup.Schedule

/-!
# Retention of system backups

Of the scheduled backups that are ready, the newest of each of the last days is kept, and the first of each of the last weeks
and months. It does not matter when the others are removed.
-/
namespace Retention

open Gregorian LocalTime Schedule

/-- Why a backup is kept -/
inductive Tier where
  | daily | weekly | monthly

def created (tz : Option Int) (b : SystemBackup) : Date := ofOrdinal (dateOf (toLocal tz b.created_at))

def dayKey (tz : Option Int) (b : SystemBackup) : Int := (created tz b).ordinal

def weekKey (tz : Option Int) (b : SystemBackup) : Int ×ₗ Int := toLex (created tz b).isocalendar

def monthKey (tz : Option Int) (b : SystemBackup) : Int ×ₗ Int := toLex ((created tz b).year, (created tz b).month)

/-- `keep.setdefault(id, []).append(why)` -/
def note (keep : List (Nat × List Tier)) (id : Nat) (why : Tier) : List (Nat × List Tier) :=
  Dict.set keep id ((Dict.get keep id).getD [] ++ [why])

/-- `pick`: the chosen ones of the highest groups -/
def pick {κ : Type} [LinearOrder κ] (rows : List SystemBackup) (keyfn : SystemBackup → κ) (limit : Nat) (newest : Bool)
    (why : Tier) (keep : List (Nat × List Tier)) : List (Nat × List Tier) :=
  ((Selection.keysDescending keyfn rows).take limit).foldl (fun keep k =>
    match Selection.chosen newest (rows.filter fun b => keyfn b = k) with
    | some chosen => note keep chosen.id why
    | none => keep) keep

def later (a b : SystemBackup) : Prop := b.created_at ≤ a.created_at

instance : DecidableRel later := fun a b => inferInstanceAs (Decidable (b.created_at ≤ a.created_at))

instance : Std.Total later := ⟨fun a b => Int.le_total b.created_at a.created_at⟩

instance : IsTrans SystemBackup later := ⟨fun _ _ _ hab hbc => Int.le_trans hbc hab⟩

/-- The scheduled backups that are ready, the newest first -/
def scheduled (db : List SystemBackup) : List SystemBackup :=
  (db.filter fun b => b.kind = .scheduled ∧ b.status = .ready).insertionSort later

def retention_plan (tz : Option Int) (cfg : Settings) (db : List SystemBackup) :
    List SystemBackup × List (Nat × List Tier) :=
  let rows := scheduled db
  let keep := pick rows (monthKey tz) cfg.keep_monthly false .monthly
    (pick rows (weekKey tz) cfg.keep_weekly false .weekly (pick rows (dayKey tz) cfg.keep_daily true .daily []))
  (rows.filter fun b => b.id ∉ Dict.keys keep, keep)

def delete_backup (db : List SystemBackup) (b : SystemBackup) : List SystemBackup := db.filter fun c => c.id ≠ b.id

def apply_retention (tz : Option Int) (cfg : Settings) (db : List SystemBackup) : List SystemBackup :=
  (retention_plan tz cfg db).1.foldl delete_backup db

/-- A row of the plan -/
def IsRow (b : SystemBackup) : Prop := b.kind = .scheduled ∧ b.status = .ready

instance : DecidablePred IsRow := fun _ => inferInstanceAs (Decidable (_ ∧ _))

/-! ## What is kept -/

section

variable (tz : Option Int) (cfg : Settings)

/-- The newest of a day, or the first of a week or of a month -/
def Kept (rows : List SystemBackup) (b : SystemBackup) : Prop :=
  (Selection.Picked (dayKey tz) true cfg.keep_daily rows b ∨ Selection.Picked (weekKey tz) false cfg.keep_weekly rows b) ∨
    Selection.Picked (monthKey tz) false cfg.keep_monthly rows b

instance {κ : Type} [LinearOrder κ] (key : SystemBackup → κ) (first : Bool) (limit : Nat) (rows : List SystemBackup) :
    DecidablePred (Selection.Picked key first limit rows) := fun _ => inferInstanceAs (Decidable (_ ∧ _))

instance (rows : List SystemBackup) : DecidablePred (Kept tz cfg rows) := fun _ => inferInstanceAs (Decidable ((_ ∨ _) ∨ _))

theorem kept_pathIndependent : Selection.PathIndependent (Kept tz cfg) :=
  ((Selection.picked_pathIndependent (dayKey tz) true cfg.keep_daily).or
    (Selection.picked_pathIndependent (weekKey tz) false cfg.keep_weekly)).or
      (Selection.picked_pathIndependent (monthKey tz) false cfg.keep_monthly)

end

theorem mem_keys_note (keep : List (Nat × List Tier)) (id other : Nat) (why : Tier) :
    other ∈ Dict.keys (note keep id why) ↔ other ∈ Dict.keys keep ∨ other = id := by
  rw [note, Dict.keys_set]
  split
  · next h => exact ⟨.inl, fun hor => hor.elim (fun hmem => hmem) fun heq => heq ▸ h⟩
  · simp

theorem mem_keys_pick {κ : Type} [LinearOrder κ] {rows : List SystemBackup} (hids : (rows.map SystemBackup.id).Nodup)
    (keyfn : SystemBackup → κ) (limit : Nat) (newest : Bool) (why : Tier) (keep : List (Nat × List Tier)) {b : SystemBackup}
    (hb : b ∈ rows) : b.id ∈ Dict.keys (pick rows keyfn limit newest why keep) ↔
      b.id ∈ Dict.keys keep ∨ Selection.Picked keyfn newest limit rows b := by
  have hfold : ∀ (ks : List κ) (keep : List (Nat × List Tier)), b.id ∈ Dict.keys (ks.foldl (fun keep k =>
      match Selection.chosen newest (rows.filter fun b => keyfn b = k) with
      | some chosen => note keep chosen.id why
      | none => keep) keep) ↔ b.id ∈ Dict.keys keep ∨
        (keyfn b ∈ ks ∧ Selection.chosen newest (rows.filter fun y => keyfn y = keyfn b) = some b) := by
    intro ks
    induction ks with
    | nil => simp
    | cons k ks ih =>
      intro keep
      rw [List.foldl_cons, ih, List.mem_cons, or_and_right, ← or_assoc]
      refine or_congr_left ?_
      cases hchosen : Selection.chosen newest (rows.filter fun b => keyfn b = k) with
      | none =>
        have hne : keyfn b ≠ k := by
          rintro rfl
          have hmem : b ∈ rows.filter fun y => keyfn y = keyfn b := List.mem_filter.mpr ⟨hb, decide_eq_true rfl⟩
          obtain ⟨y, hy⟩ := Selection.chosen_isSome hmem
          rw [hchosen] at hy
          cases hy
        simp [hne]
      | some c =>
        obtain ⟨hc, hkey⟩ := List.mem_filter.mp (Selection.chosen_mem hchosen)
        have hkey := of_decide_eq_true hkey
        rw [mem_keys_note]
        refine or_congr_right ⟨fun hid => ?_, fun h => ?_⟩
        · obtain rfl := List.inj_on_of_nodup_map hids hb hc hid
          exact ⟨hkey, by rw [hkey, hchosen]⟩
        · rw [h.1, hchosen] at h
          rw [Option.some.inj h.2]
  exact hfold _ keep

theorem plan_doomed {tz : Option Int} {cfg : Settings} {db : List SystemBackup}
    (hids : ((scheduled db).map SystemBackup.id).Nodup) :
    (retention_plan tz cfg db).1 = (scheduled db).filter fun b => ¬Kept tz cfg (scheduled db) b := by
  refine List.filter_congr fun b hb => decide_eq_decide.mpr (not_congr ?_)
  rw [mem_keys_pick hids _ _ _ _ _ hb, mem_keys_pick hids _ _ _ _ _ hb, mem_keys_pick hids _ _ _ _ _ hb]
  simp [Kept]

/-! ## The catalog -/

theorem mem_scheduled {db : List SystemBackup} {b : SystemBackup} : b ∈ scheduled db ↔ b ∈ db ∧ IsRow b := by
  simp [scheduled, IsRow]

theorem scheduled_ids {db : List SystemBackup} (h : (db.map SystemBackup.id).Nodup) :
    ((scheduled db).map SystemBackup.id).Nodup := by
  refine ((List.perm_insertionSort later _).map SystemBackup.id).nodup_iff.mpr ?_
  exact h.sublist (List.filter_sublist.map _)

/-- Backups in the order in which they were made -/
def InOrder (db : List SystemBackup) : Prop := (db.filter fun b => IsRow b).Pairwise fun a b => a.created_at < b.created_at

theorem scheduled_eq {db : List SystemBackup} (h : InOrder db) : scheduled db = (db.filter fun b => IsRow b).reverse := by
  have hreverse : (db.filter fun b => IsRow b).reverse.Pairwise fun a b => b.created_at < a.created_at :=
    List.pairwise_reverse.mpr h
  have hperm : (scheduled db).Perm (db.filter fun b => IsRow b).reverse :=
    (List.perm_insertionSort later _).trans (List.reverse_perm _).symm
  have htimes : ((db.filter fun b => IsRow b).map SystemBackup.created_at).Nodup :=
    List.pairwise_map.mpr (h.imp fun hlt => Int.ne_of_lt hlt)
  refine hperm.eq_of_pairwise (fun a b ha hb hab hba => ?_) (List.pairwise_insertionSort later _)
    (hreverse.imp fun hlt => Int.le_of_lt hlt)
  have ha' := List.mem_reverse.mp (hperm.mem_iff.mp ha)
  exact List.inj_on_of_nodup_map htimes ha' (List.mem_reverse.mp hb) (Int.le_antisymm hba hab)

theorem foldl_delete (doomed db : List SystemBackup) :
    doomed.foldl delete_backup db = db.filter fun c => ∀ b ∈ doomed, c.id ≠ b.id := by
  induction doomed generalizing db with
  | nil => simp
  | cons b doomed ih =>
    rw [List.foldl_cons, ih, delete_backup, List.filter_filter]
    refine List.filter_congr fun c _ => ?_
    simp only [List.forall_mem_cons, Bool.decide_and, Bool.and_comm]

theorem apply_retention_eq {tz : Option Int} {cfg : Settings} {db : List SystemBackup} (hids : (db.map SystemBackup.id).Nodup) :
    apply_retention tz cfg db = db.filter fun b => IsRow b → Kept tz cfg (scheduled db) b := by
  rw [apply_retention, foldl_delete, plan_doomed (scheduled_ids hids)]
  refine List.filter_congr fun c hc => decide_eq_decide.mpr ⟨fun h hrow => ?_, fun h b hb hid => ?_⟩
  · by_contra hnot
    exact h c (List.mem_filter.mpr ⟨mem_scheduled.mpr ⟨hc, hrow⟩, decide_eq_true hnot⟩) rfl
  · obtain ⟨hb, hnot⟩ := List.mem_filter.mp hb
    obtain ⟨hdb, hrow⟩ := mem_scheduled.mp hb
    obtain rfl := List.inj_on_of_nodup_map hids hc hdb hid
    exact of_decide_eq_true hnot (h hrow)

theorem ids_sublist {part whole : List SystemBackup} (hsub : part.Sublist whole) (h : (whole.map SystemBackup.id).Nodup) :
    (part.map SystemBackup.id).Nodup := h.sublist (hsub.map _)

theorem inOrder_sublist {part whole : List SystemBackup} (hsub : part.Sublist whole) (h : InOrder whole) : InOrder part :=
  h.sublist (hsub.filter _)

/-- What is left of the scheduled backups is a sweep of them. -/
theorem scheduled_apply {tz : Option Int} {cfg : Settings} {db : List SystemBackup} (hids : (db.map SystemBackup.id).Nodup)
    (horder : InOrder db) : scheduled (apply_retention tz cfg db) = Selection.sweep (Kept tz cfg) (scheduled db) := by
  have happly : apply_retention tz cfg db = db.filter fun b => IsRow b → Kept tz cfg (scheduled db) b := apply_retention_eq hids
  have hleft : InOrder (apply_retention tz cfg db) := by
    rw [happly]
    exact inOrder_sublist List.filter_sublist horder
  have hrows : ∀ rows : List SystemBackup, ((db.filter fun b => IsRow b → Kept tz cfg rows b).filter fun b => IsRow b).reverse =
      (db.filter fun b => IsRow b).reverse.filter fun b => Kept tz cfg rows b := by
    intro rows
    rw [List.filter_reverse, List.filter_filter, List.filter_filter]
    congr 1
    refine List.filter_congr fun b _ => ?_
    by_cases hrow : IsRow b <;> simp [hrow]
  rw [scheduled_eq hleft, happly, hrows, ← scheduled_eq horder, Selection.sweep]

/-- Backups are made one after the other; after some of them the others are removed. -/
def run (tz : Option Int) (cfg : Settings) : List (SystemBackup × Bool) → List SystemBackup → List SystemBackup
  | [], db => db
  | (b, swept) :: steps, db => run tz cfg steps (if swept then apply_retention tz cfg (db ++ [b]) else db ++ [b])

/-- All backups that are made -/
def made (steps : List (SystemBackup × Bool)) (db : List SystemBackup) : List SystemBackup := db ++ steps.map Prod.fst

/-- A catalog in the order of time, to which scheduled backups are added in that order -/
structure Growing (steps : List (SystemBackup × Bool)) (db : List SystemBackup) : Prop where
  ids : ((made steps db).map SystemBackup.id).Nodup
  order : InOrder (made steps db)
  ready : ∀ s ∈ steps, IsRow s.1

/-- A catalog that lacks only what is not kept -/
structure Holds (tz : Option Int) (cfg : Settings) (db whole : List SystemBackup) : Prop where
  sublist : db.Sublist whole
  others : ∀ b ∈ whole, ¬IsRow b → b ∈ db
  covers : Selection.Covers (Kept tz cfg) (scheduled db) (scheduled whole)

section

variable {tz : Option Int} {cfg : Settings} {db whole : List SystemBackup}

theorem Holds.refl (tz : Option Int) (cfg : Settings) (db : List SystemBackup) : Holds tz cfg db db :=
  ⟨List.Sublist.refl db, fun _ hb _ => hb, .refl _ _⟩

theorem scheduled_snoc {b : SystemBackup} (horder : InOrder (db ++ [b])) (hrow : IsRow b) :
    scheduled (db ++ [b]) = b :: scheduled db := by
  rw [scheduled_eq horder, scheduled_eq (inOrder_sublist (List.sublist_append_left db [b]) horder), List.filter_append,
    List.reverse_append]
  simp [hrow]

theorem scheduled_nodup (hids : (whole.map SystemBackup.id).Nodup) : (scheduled whole).Nodup := (scheduled_ids hids).of_map

theorem Holds.create {b : SystemBackup} (h : Holds tz cfg db whole) (hids : ((whole ++ [b]).map SystemBackup.id).Nodup)
    (horder : InOrder (whole ++ [b])) (hrow : IsRow b) : Holds tz cfg (db ++ [b]) (whole ++ [b]) where
  sublist := h.sublist.append_right [b]
  others c hc hnot := by
    rcases List.mem_append.mp hc with hc | hc
    · exact List.mem_append_left _ (h.others c hc hnot)
    · exact List.mem_append_right _ hc
  covers := by
    have hnodup := scheduled_nodup hids
    rw [scheduled_snoc horder hrow] at hnodup ⊢
    rw [scheduled_snoc (inOrder_sublist (h.sublist.append_right [b]) horder) hrow]
    exact h.covers.cons (kept_pathIndependent tz cfg) hnodup

theorem Holds.apply (h : Holds tz cfg db whole) (hids : (whole.map SystemBackup.id).Nodup) (horder : InOrder whole) :
    Holds tz cfg (apply_retention tz cfg db) whole where
  sublist := by
    rw [apply_retention_eq (ids_sublist h.sublist hids)]
    exact List.filter_sublist.trans h.sublist
  others b hb hnot := by
    rw [apply_retention_eq (ids_sublist h.sublist hids)]
    exact List.mem_filter.mpr ⟨h.others b hb hnot, decide_eq_true fun hrow => absurd hrow hnot⟩
  covers := by
    rw [scheduled_apply (ids_sublist h.sublist hids) (inOrder_sublist h.sublist horder)]
    exact h.covers.sweep (kept_pathIndependent tz cfg) (scheduled_nodup hids)

/-- Whatever was removed on the way, the same backups are left at the end. -/
theorem Holds.mem_apply (h : Holds tz cfg db whole) (hids : (whole.map SystemBackup.id).Nodup) (b : SystemBackup) :
    b ∈ apply_retention tz cfg db ↔ b ∈ apply_retention tz cfg whole := by
  have hsweep := h.covers.sweep_eq (kept_pathIndependent tz cfg) (scheduled_nodup hids)
  have hmem : ∀ {l : List SystemBackup}, (l.map SystemBackup.id).Nodup →
      (b ∈ apply_retention tz cfg l ↔ b ∈ l ∧ (IsRow b → b ∈ Selection.sweep (Kept tz cfg) (scheduled l))) := by
    intro l hl
    rw [apply_retention_eq hl, List.mem_filter, decide_eq_true_eq]
    refine and_congr_right fun hb => imp_congr_right fun hrow => ?_
    rw [Selection.sweep, List.mem_filter, decide_eq_true_eq, mem_scheduled]
    exact ⟨fun hkept => ⟨⟨hb, hrow⟩, hkept⟩, fun hkept => hkept.2⟩
  rw [hmem (ids_sublist h.sublist hids), hmem hids, hsweep]
  refine and_congr_left fun hkept => ⟨fun hb => h.sublist.subset hb, fun hb => ?_⟩
  by_cases hrow : IsRow b
  · have hcovered := hkept hrow
    rw [← hsweep] at hcovered
    exact (mem_scheduled.mp (List.mem_of_mem_filter hcovered)).1
  · exact h.others b hb hrow

theorem Holds.run {steps : List (SystemBackup × Bool)} (hgrowing : Growing steps whole) (h : Holds tz cfg db whole) :
    Holds tz cfg (Retention.run tz cfg steps db) (made steps whole) := by
  induction steps generalizing db whole with
  | nil =>
    rw [made, List.map_nil, List.append_nil]
    exact h
  | cons step steps ih =>
    obtain ⟨b, swept⟩ := step
    have hmade : made ((b, swept) :: steps) whole = made steps (whole ++ [b]) := by simp [made]
    have hsub : (whole ++ [b]).Sublist (made steps (whole ++ [b])) := List.sublist_append_left _ _
    have hids : ((made steps (whole ++ [b])).map SystemBackup.id).Nodup := hmade ▸ hgrowing.ids
    have horder : InOrder (made steps (whole ++ [b])) := hmade ▸ hgrowing.order
    have hcreate := h.create (ids_sublist hsub hids) (inOrder_sublist hsub horder) (hgrowing.ready _ List.mem_cons_self)
    have hrest : Growing steps (whole ++ [b]) := ⟨hids, horder, fun s hs => hgrowing.ready s (List.mem_cons_of_mem _ hs)⟩
    rw [hmade, Retention.run]
    cases swept with
    | false => exact ih hrest hcreate
    | true => exact ih hrest (hcreate.apply (ids_sublist hsub hids) (inOrder_sublist hsub horder))

theorem dayKey_mono {a b : SystemBackup} (h : a.created_at ≤ b.created_at) : dayKey tz a ≤ dayKey tz b := by
  rw [dayKey, dayKey, created, created, ordinal_ofOrdinal, ordinal_ofOrdinal]
  refine dateOf_mono ?_
  unfold toLocal
  omega

theorem newest_kept (hids : (db.map SystemBackup.id).Nodup) {b : SystemBackup} (hb : (scheduled db).head? = some b) :
    b ∈ apply_retention tz cfg db := by
  have hmem := List.mem_of_head? hb
  have htop : ∀ c ∈ scheduled db, dayKey tz c ≤ dayKey tz b := by
    intro c hc
    have hsorted : (scheduled db).Pairwise later := List.pairwise_insertionSort later _
    cases hrows : scheduled db with
    | nil =>
      rw [hrows] at hc
      cases hc
    | cons a rows =>
      rw [hrows] at hb hc hsorted
      obtain rfl : a = b := Option.some.inj hb
      rcases List.mem_cons.mp hc with rfl | hc
      · exact Int.le_refl _
      · exact dayKey_mono ((List.pairwise_cons.mp hsorted).1 c hc)
  rw [apply_retention_eq hids]
  refine List.mem_filter.mpr ⟨(mem_scheduled.mp hmem).1, decide_eq_true fun _ => ?_⟩
  exact .inl (.inl (Selection.picked_head (dayKey tz) cfg.keep_daily_valid htop hb))

/-- A second removal in a row finds nothing. -/
theorem nothing_left (hids : (db.map SystemBackup.id).Nodup) (horder : InOrder db) :
    (retention_plan tz cfg (apply_retention tz cfg db)).1 = [] := by
  have hsub : (apply_retention tz cfg db).Sublist db := by
    rw [apply_retention_eq hids]
    exact List.filter_sublist
  have hsweep := Selection.sweep_sweep (kept_pathIndependent tz cfg) (scheduled_nodup hids)
  rw [plan_doomed (scheduled_ids (ids_sublist hsub hids)), scheduled_apply hids horder, List.filter_eq_nil_iff]
  intro b hb
  have hkept := List.filter_eq_self.mp hsweep b hb
  simpa using of_decide_eq_true hkept

end

/-- Removing after some of the creations and at the end leaves what removing once at the end leaves; the newest backup is kept;
and removing again removes nothing. -/
theorem retention_confluent (tz : Option Int) (cfg : Settings) {steps : List (SystemBackup × Bool)} {db : List SystemBackup}
    (h : Growing steps db) :
    (∀ b, b ∈ apply_retention tz cfg (run tz cfg steps db) ↔ b ∈ apply_retention tz cfg (made steps db)) ∧
      (∀ b, (scheduled (made steps db)).head? = some b → b ∈ apply_retention tz cfg (run tz cfg steps db)) ∧
        (retention_plan tz cfg (apply_retention tz cfg (run tz cfg steps db))).1 = [] := by
  have hrun := (Holds.refl tz cfg db).run h
  refine ⟨hrun.mem_apply h.ids, fun b hb => ?_, ?_⟩
  · rw [hrun.mem_apply h.ids]
    exact newest_kept h.ids hb
  · exact nothing_left (ids_sublist hrun.sublist h.ids) (inOrder_sublist hrun.sublist h.order)

/-- Two backups of one day, with a removal after the first -/
def twice : List (SystemBackup × Bool) :=
  [(⟨1, .scheduled, .ready, 2 * hour⟩, true), (⟨2, .scheduled, .ready, 14 * hour⟩, false)]

theorem twice_confluent : (∀ b, b ∈ apply_retention none fridays (run none fridays twice []) ↔
      b ∈ apply_retention none fridays (made twice [])) ∧
    (∀ b, (scheduled (made twice [])).head? = some b → b ∈ apply_retention none fridays (run none fridays twice [])) ∧
      (retention_plan none fridays (apply_retention none fridays (run none fridays twice []))).1 = [] :=
  retention_confluent none fridays ⟨by decide, by unfold InOrder; decide, by decide⟩

end Retention
