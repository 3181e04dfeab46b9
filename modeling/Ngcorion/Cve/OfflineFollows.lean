import Ngcorion.Cve.OfflinePackage
import Mathlib.Order.Nat

/-!
# An offline instance follows its exporter

The exporter is updated from NVD and writes packages, and another instance that gets nothing else
imports them: first a full one, then any that fit.
-/
namespace OfflineFollows

open CveStore OfflinePackage Transition
open NvdUpdate (Cve Job Server Window second)

variable {F R : Type} [LinearOrder R]

/-! ## Steps -/

/-- The exporter with the dates of its feeds, the importer, the packages with the tables of their time,
and the number of the last one that was imported. -/
structure State (F R : Type) where
  exporter : NvdUpdate.State F
  released : R
  epss_date : R
  importer : Site F R
  packages : List (Package F R × Db F)
  imported : Option Nat

def State.site (s : State F R) : Site F R := ⟨s.exporter.db, s.exporter.watermark, s.released, s.epss_date⟩

inductive Action (F R : Type) where
  /-- A step of NVD or of the exporter's update; a list that an update applies has a date. -/
  | online (a : NvdUpdate.Action F) (released epss_date : R)
  | build (kind : Kind) (since : Option Nat)
  | load (package : Nat) (now : Nat → Nat)

/-- The lists of an update that are applied are not older than those before. -/
def dated (s : State F R) (released epss_date : R) : NvdUpdate.Action F → Prop
  | .commit _ kev epss => (kev.isSome = true → s.released ≤ released) ∧ (epss.isSome = true → s.epss_date ≤ epss_date)
  | _ => True

instance (s : State F R) (released epss_date : R) (a : NvdUpdate.Action F) : Decidable (dated s released epss_date a) := by
  cases a <;> unfold dated <;> infer_instance

/-- The date of the catalogue after a step. -/
def releasedAfter (s : State F R) (released : R) : NvdUpdate.Action F → R
  | .commit _ (some _) _ => released
  | _ => s.released

def epssDateAfter (s : State F R) (epss_date : R) : NvdUpdate.Action F → R
  | .commit _ _ (some _) => epss_date
  | _ => s.epss_date

def step (server : Server) (s : State F R) : Action F R → Option (State F R)
  | .online a released epss_date =>
    if dated s released epss_date a then
      (NvdUpdate.step server s.exporter a).map fun exporter =>
        { s with
          exporter := exporter
          released := releasedAfter s released a
          epss_date := epssDateAfter s epss_date a }
    else none
  | .build kind since =>
    (build kind since s.site).map fun p => { s with packages := s.packages ++ [(p, s.exporter.db)] }
  | .load i now =>
    s.packages[i]?.bind fun p =>
      (import_package now p.1 s.importer).map fun importer => { s with importer := importer, imported := some i }

/-- Before the first update and the first import. -/
def begin [OrderBot R] (clock : Nat) (feed : List (Cve F)) : State F R :=
  ⟨NvdUpdate.begin clock feed, ⊥, ⊥, ⟨.empty, none, ⊥, ⊥⟩, [], none⟩

/-- A record of an update was changed since the end of a package, or is in the package's tables. -/
def Brought (p : Package F R × Db F) (r : Record F) : Prop :=
  r.rejected = false → p.1.ends ≤ r.modified.getD 0 ∨ Holds p.2 r

/-- A full update brings nothing that was changed before the end of a package without being in its tables, and the
packages are imported in their order. -/
def Allowed (s : State F R) : Action F R → Prop
  | .online (.commit _ _ _) _ _ =>
    ∀ j ∈ s.exporter.job, j.start = none → ∀ p ∈ s.packages, ∀ r ∈ j.spool, Brought p r
  | .load i _ => ∀ last ∈ s.imported, last ≤ i
  | _ => True

/-! ## Later tables -/

def stamp (e : CveEntry F) : Nat := e.nvd.last_modified.getD 0

/-- Tables come after others that end at a time: their entries are not older, and an entry that is not the same
was changed since. -/
structure Later (a : Db F) (ends : Nat) (b : Db F) : Prop where
  older : ∀ id e e', a.entry id = some e → b.entry id = some e' → stamp e ≤ stamp e'
  changed : ∀ id e', b.entry id = some e' →
    (a.entry id).map CveEntry.nvd = some e'.nvd ∧ a.cpes id = b.cpes id ∨ ends ≤ stamp e'

section Later

variable {a b c : Db F} {ends now : Nat} {records : List (Record F)}

theorem stamp_of_nvd {e e' : CveEntry F} (h : e.nvd = e'.nvd) : stamp e = stamp e' := congrArg (·.last_modified.getD 0) h

theorem Later.refl (a : Db F) (ends : Nat) : Later a ends a := by
  constructor
  · intro id e e' he he'
    rw [he] at he'
    cases he'
    exact Nat.le_refl _
  · intro id e he
    rw [he]
    exact .inl ⟨rfl, rfl⟩

/-- Tables with the same columns of NVD and criteria. -/
theorem Later.of_same (h : Later a ends b)
    (hsame : ∀ id, (c.entry id).map CveEntry.nvd = (b.entry id).map CveEntry.nvd ∧ c.cpes id = b.cpes id) :
    Later a ends c := by
  have hback {id : CveId} {e : CveEntry F} (he : c.entry id = some e) : ∃ e', b.entry id = some e' ∧ e'.nvd = e.nvd := by
    have hnvd := (hsame id).1
    rw [he] at hnvd
    exact Option.map_eq_some_iff.mp hnvd.symm
  constructor
  · intro id e e'' he he''
    obtain ⟨e', he', heq⟩ := hback he''
    rw [← stamp_of_nvd heq]
    exact h.older id e e' he he'
  · intro id e'' he''
    obtain ⟨e', he', heq⟩ := hback he''
    rw [(hsame id).2, ← stamp_of_nvd heq, ← heq]
    exact h.changed id e' he'

/-- A batch of records that are not older, each of which was changed since or is in the tables. -/
theorem Later.batch (h : Later a ends b) (hbatch : apply_cve_batch now records b = some c)
    (hstamped : ∀ r ∈ records, r.rejected = false → r.modified.isSome = true) (hfresh : ∀ r ∈ records, Fresh a r)
    (hbrought : ∀ r ∈ records, r.rejected = false → ends ≤ r.modified.getD 0 ∨ Holds a r) : Later a ends c := by
  have hwritten {r : Record F} {e : CveEntry F} (hholds : Holds c r) (he : c.entry r.id = some e) :
      e.nvd = nvdOf r.clean ∧ stamp e = r.modified.getD 0 := by
    have hnvd := hholds.1
    rw [he] at hnvd
    have hsame : e.nvd = nvdOf r.clean := Option.some.inj hnvd
    exact ⟨hsame, congrArg (·.last_modified.getD 0) hsame⟩
  constructor
  · intro id e e' he he'
    obtain ⟨r, hr, rfl, hrejected, -, hholds, -⟩ | ⟨-, habsent⟩ | ⟨hentry, -⟩ := batch_row hbatch id
    · rw [(hwritten hholds he').2]
      obtain ⟨m, hm⟩ := Option.isSome_iff_exists.mp (hstamped r hr hrejected)
      unfold stamp
      rw [hm]
      cases hlast : e.nvd.last_modified with
      | none => exact Nat.zero_le _
      | some m₀ => exact hfresh r hr e he m₀ m hlast hm
    · rw [habsent.1] at he'
      cases he'
    · exact h.older id e e' he (hentry ▸ he')
  · intro id e' he'
    obtain ⟨r, hr, rfl, hrejected, -, hholds, -⟩ | ⟨-, habsent⟩ | ⟨hentry, hcpes⟩ := batch_row hbatch id
    · obtain ⟨hnvd, hstamp⟩ := hwritten hholds he'
      rw [hstamp, hnvd]
      exact (hbrought r hr hrejected).symm.imp_left fun hold => ⟨hold.1, hold.2.trans hholds.2.symm⟩
    · rw [habsent.1] at he'
      cases he'
    · rw [hcpes]
      exact h.changed id e' (hentry ▸ he')

theorem Later.cves {now : Nat → Nat} (h : Later a ends b) (hcves : apply_cves now records b = some c)
    (hstamped : ∀ r ∈ records, r.rejected = false → r.modified.isSome = true) (hfresh : ∀ r ∈ records, Fresh a r)
    (hbrought : ∀ r ∈ records, r.rejected = false → ends ≤ r.modified.getD 0 ∨ Holds a r) : Later a ends c := by
  have hall (batches : List (List (Record F))) (k : Nat) (b : Db F) (hb : Later a ends b)
      (hwrite : RepeatedIds.writeAll now k batches b = some c) (hsub : ∀ r ∈ batches.flatten, r ∈ records) :
      Later a ends c := by
    induction batches generalizing k b with
    | nil =>
      cases hwrite
      exact hb
    | cons records' batches ih =>
      obtain ⟨b₁, hbatch, hrest⟩ := Option.bind_eq_some_iff.mp hwrite
      have hin : ∀ r ∈ records', r ∈ records := fun r hr => hsub r (List.mem_append_left _ hr)
      refine ih (k + 1) b₁ (hb.batch hbatch ?_ ?_ ?_) hrest (fun r hr => hsub r (List.mem_append_right _ hr))
      · exact fun r hr => hstamped r (hin r hr)
      · exact fun r hr => hfresh r (hin r hr)
      · exact fun r hr => hbrought r (hin r hr)
  unfold apply_cves at hcves
  rw [RepeatedIds.applyFrom_cut] at hcves
  refine hall _ 0 b h hcves ?_
  rw [RepeatedIds.cut_flatten]
  exact fun r hr => hr

end Later

/-! ## The exporter -/

/-- What holds of a run in progress: what it downloads changed since its start. -/
structure RunInv (e : NvdUpdate.State F) (j : Job F) : Prop where
  start : ∀ lo, j.start = some lo → e.watermark = some lo ∧
    (∀ r ∈ j.spool, r.rejected = false → lo ≤ r.modified.getD 0) ∧
    ∀ w ∈ j.windows, ∃ lo' hi, w = some (lo', hi) ∧ lo ≤ lo'
  finish : ∀ w, e.watermark = some w → w ≤ j.finish
  past : j.finish * second ≤ e.clock

structure ExporterInv (e : NvdUpdate.State F) : Prop where
  pages : RepeatedIds.PageInv e
  run : ∀ j, e.job = some j → RunInv e j
  clock : ∀ w, e.watermark = some w → w * second ≤ e.clock

section Exporter

variable {server : Server} {e e' : NvdUpdate.State F} {j : Job F} {a : NvdUpdate.Action F}

theorem windowsFrom_ge {fuel cursor finish : Nat} {w : Window} (h : w ∈ NvdUpdate.windowsFrom fuel cursor finish) :
    ∃ lo hi, w = some (lo, hi) ∧ cursor ≤ lo := by
  induction fuel generalizing cursor with
  | zero => cases h
  | succ fuel ih =>
    unfold NvdUpdate.windowsFrom at h
    split at h
    · cases List.mem_cons.mp h with
      | inl heq => exact ⟨_, _, heq, Nat.le_refl _⟩
      | inr hmem =>
        obtain ⟨lo, hi, heq, hle⟩ := ih hmem
        exact ⟨lo, hi, heq, by unfold NvdUpdate.maxWindow at hle; omega⟩
    · cases h

/-- A step that leaves the tables, the end of the last run and the run in progress. -/
theorem ExporterInv.waits (h : ExporterInv e) (hpages : RepeatedIds.PageInv e') (hjob : e'.job = e.job)
    (hwatermark : e'.watermark = e.watermark) (hclock : e.clock ≤ e'.clock) : ExporterInv e' := by
  constructor
  · exact hpages
  · intro j hj
    have hrun := h.run j (hjob ▸ hj)
    constructor
    · rw [hwatermark]
      exact hrun.start
    · rw [hwatermark]
      exact hrun.finish
    · exact Nat.le_trans hrun.past hclock
  · intro w hw
    exact Nat.le_trans (h.clock w (hwatermark ▸ hw)) hclock

/-- The run that begins. -/
theorem runInv_begin (h : ExporterInv e) {start : Option Nat} (hstart : ∀ lo, start = some lo → e.watermark = some lo) :
    RunInv e ⟨start, e.clock / second, NvdUpdate.windows start (e.clock / second), 0, none, []⟩ := by
  constructor
  · rintro lo rfl
    refine ⟨hstart lo rfl, by simp, ?_⟩
    intro w hw
    exact windowsFrom_ge hw
  · intro w hw
    exact (Nat.le_div_iff_mul_le (by decide)).mpr (h.clock w hw)
  · exact Nat.div_mul_le_self _ _

/-- A page of a window brings what changed in the window. -/
theorem runInv_page (h : RunInv e j) {w : Window} {rest : List Window} (hwindows : j.windows = w :: rest)
    {cs : List (Cve F)} (hcs : ∀ c ∈ cs, w.has c = true) (index : Nat) (total : Option Nat) :
    RunInv e { j with index := index, total := total, spool := j.spool ++ cs.map Cve.normalize } := by
  constructor
  · intro lo hlo
    obtain ⟨hwatermark, hspool, hlater⟩ := h.start lo hlo
    refine ⟨hwatermark, ?_, hlater⟩
    intro r hr hrejected
    cases List.mem_append.mp hr with
    | inl hold => exact hspool r hold hrejected
    | inr hnew =>
      obtain ⟨c, hc, rfl⟩ := List.mem_map.mp hnew
      obtain ⟨lo', hi, rfl, hle⟩ := hlater w (hwindows ▸ List.mem_cons_self)
      have hhas := hcs c hc
      unfold Window.has at hhas
      rw [Bool.and_eq_true, decide_eq_true_eq, decide_eq_true_eq] at hhas
      unfold Cve.normalize at hrejected ⊢
      split
      · next hrej =>
        rw [if_pos hrej] at hrejected
        cases hrejected
      · change lo ≤ c.lastModified / second
        exact (Nat.le_div_iff_mul_le (by decide)).mpr (Nat.le_trans (Nat.mul_le_mul_right _ hle) hhas.1)
  · exact h.finish
  · exact h.past

/-- A step of the exporter is the end of a run, or it leaves the tables and the end of the last run. -/
theorem exporter_step (h : ExporterInv e) (hstep : NvdUpdate.step server e a = some e') : ExporterInv e' ∧
    ((∃ now kev epss j, a = .commit now kev epss ∧ e.job = some j ∧
        NvdUpdate.applyAll now kev epss j.spool e.db = some e'.db ∧ e'.watermark = some j.finish) ∨
      (∀ now kev epss, a ≠ .commit now kev epss) ∧ e'.db = e.db ∧ e'.watermark = e.watermark) := by
  have hpages := RepeatedIds.pageInv_step h.pages hstep
  cases a with
  | tick microseconds =>
    cases hstep
    exact ⟨h.waits hpages rfl rfl (Nat.le_add_right _ _), .inr ⟨by simp, rfl, rfl⟩⟩
  | revise id rejected data =>
    simp only [NvdUpdate.step] at hstep
    split at hstep
    · cases hstep
      exact ⟨h.waits hpages rfl rfl (Nat.le_refl _), .inr ⟨by simp, rfl, rfl⟩⟩
    · cases hstep
  | publish k id rejected data =>
    simp only [NvdUpdate.step] at hstep
    split at hstep
    · cases hstep
    · cases hstep
      exact ⟨h.waits hpages rfl rfl (Nat.le_refl _), .inr ⟨by simp, rfl, rfl⟩⟩
  | start full =>
    simp only [NvdUpdate.step] at hstep
    split at hstep
    · cases hstep
    · cases hstep
      refine ⟨⟨hpages, ?_, h.clock⟩, .inr ⟨by simp, rfl, rfl⟩⟩
      intro j hj
      cases hj
      have hstart : ∀ lo, (if full ∨ e.db.entries = [] then none else e.watermark) = some lo → e.watermark = some lo := by
        intro lo hlo
        split at hlo
        · cases hlo
        · exact hlo
      have hrun := runInv_begin h hstart
      exact ⟨hrun.start, hrun.finish, hrun.past⟩
  | page =>
    obtain ⟨j, hj, hnext⟩ := Option.bind_eq_some_iff.mp hstep
    obtain ⟨j', hpage, rfl⟩ := Option.map_eq_some_iff.mp hnext
    refine ⟨⟨hpages, ?_, h.clock⟩, .inr ⟨by simp, rfl, rfl⟩⟩
    intro j'' hj''
    cases hj''
    unfold NvdUpdate.nextPage at hpage
    split at hpage
    · cases hpage
    · next w rest hwindows =>
      split at hpage
      · cases hpage
        have hcs : ∀ c ∈ ((NvdUpdate.matching w e.feed).drop j.index).take server.page, w.has c = true :=
          fun c hc => (List.mem_filter.mp (List.mem_of_mem_drop (List.mem_of_mem_take hc))).2
        have hrun := runInv_page (h.run j hj) hwindows hcs (j.index + server.page)
          (some (NvdUpdate.matching w e.feed).length)
        exact ⟨hrun.start, hrun.finish, hrun.past⟩
      · cases hpage
  | window =>
    obtain ⟨j, hj, hnext⟩ := Option.bind_eq_some_iff.mp hstep
    obtain ⟨j', hwindow, rfl⟩ := Option.map_eq_some_iff.mp hnext
    refine ⟨⟨hpages, ?_, h.clock⟩, .inr ⟨by simp, rfl, rfl⟩⟩
    intro j'' hj''
    cases hj''
    have hrun := h.run j hj
    unfold NvdUpdate.nextWindow at hwindow
    split at hwindow
    · cases hwindow
    · next w rest hwindows =>
      split at hwindow
      · cases hwindow
      · cases hwindow
        refine ⟨?_, hrun.finish, hrun.past⟩
        intro lo hlo
        obtain ⟨hwatermark, hspool, hlater⟩ := hrun.start lo hlo
        exact ⟨hwatermark, hspool, fun w' hw' => hlater w' (hwindows ▸ List.mem_cons_of_mem _ hw')⟩
  | commit now kev epss =>
    obtain ⟨j, hj, hcommit⟩ := Option.bind_eq_some_iff.mp hstep
    split at hcommit
    · obtain ⟨db, happly, rfl⟩ := Option.map_eq_some_iff.mp hcommit
      refine ⟨⟨hpages, fun j hj => (Option.some_ne_none j hj.symm).elim, ?_⟩, .inl ⟨now, kev, epss, j, rfl, hj, happly, rfl⟩⟩
      intro w hw
      cases hw
      exact (h.run j hj).past
    · cases hcommit
  | fail =>
    cases hstep
    exact ⟨⟨hpages, fun j hj => (Option.some_ne_none j hj.symm).elim, h.clock⟩, .inr ⟨by simp, rfl, rfl⟩⟩

/-- A step that does not read the tables leaves what others have known, and the end of a run leaves no records. -/
theorem pageInv_other {db : Db F} (h : RepeatedIds.PageInv { e with db := db }) (hstep : NvdUpdate.step server e a = some e') :
    RepeatedIds.PageInv { e' with db := db } := by
  have hother (hstep' : NvdUpdate.step server { e with db := db } a = some { e' with db := db }) :
      RepeatedIds.PageInv { e' with db := db } := RepeatedIds.pageInv_step h hstep'
  cases a with
  | tick microseconds =>
    cases hstep
    exact hother rfl
  | revise id rejected data =>
    simp only [NvdUpdate.step] at hstep
    split at hstep
    · next hin =>
      cases hstep
      exact hother (if_pos hin)
    · cases hstep
  | publish k id rejected data =>
    simp only [NvdUpdate.step] at hstep
    split at hstep
    · cases hstep
    · next hnew =>
      cases hstep
      exact hother (if_neg hnew)
  | start full =>
    simp only [NvdUpdate.step] at hstep
    split at hstep
    · cases hstep
    · cases hstep
      refine ⟨h.ids, h.past, h.stored, ?_, ?_⟩
      · intro j hj r hr
        cases hj
        cases hr
      · intro j hj
        cases hj
        exact ⟨by simp, List.Pairwise.nil, by simp⟩
  | page =>
    obtain ⟨j, hj, hnext⟩ := Option.bind_eq_some_iff.mp hstep
    obtain ⟨j', hpage, rfl⟩ := Option.map_eq_some_iff.mp hnext
    refine hother (Option.bind_eq_some_iff.mpr ⟨j, hj, ?_⟩)
    exact Option.map_eq_some_iff.mpr ⟨j', hpage, rfl⟩
  | window =>
    obtain ⟨j, hj, hnext⟩ := Option.bind_eq_some_iff.mp hstep
    obtain ⟨j', hwindow, rfl⟩ := Option.map_eq_some_iff.mp hnext
    refine hother (Option.bind_eq_some_iff.mpr ⟨j, hj, ?_⟩)
    exact Option.map_eq_some_iff.mpr ⟨j', hwindow, rfl⟩
  | commit now kev epss =>
    obtain ⟨j, hj, hcommit⟩ := Option.bind_eq_some_iff.mp hstep
    split at hcommit
    · obtain ⟨db', happly, rfl⟩ := Option.map_eq_some_iff.mp hcommit
      exact ⟨h.ids, h.past, h.stored, fun j hj => (Option.some_ne_none j hj.symm).elim,
        fun j hj => (Option.some_ne_none j hj.symm).elim⟩
    · cases hcommit
  | fail =>
    cases hstep
    exact hother rfl

/-- The end of a run keeps the tables proper, and what comes before them. -/
theorem commit_keeps (h : ExporterInv e) (hproper : Proper e.db) (hj : e.job = some j) {now : Nat → Nat}
    {kev : Option (List KevItem)} {epss : Option (List (CveId × F × F))} {db : Db F}
    (happly : NvdUpdate.applyAll now kev epss j.spool e.db = some db) :
    Proper db ∧ ∀ a ends w, Later a ends e.db → RepeatedIds.PageInv { e with db := a } → e.watermark = some w → ends ≤ w →
      (j.start = none → ∀ r ∈ j.spool, r.rejected = false → ends ≤ r.modified.getD 0 ∨ Holds a r) → Later a ends db := by
  have hstamped := (h.pages.yielded j hj).stamped
  constructor
  · obtain ⟨db₁, hcves, rfl⟩ := Option.map_eq_some_iff.mp happly
    have hproper₁ : Proper db₁ := hproper.cves hcves hstamped
    cases kev with
    | none =>
      cases epss with
      | none => exact hproper₁
      | some rows => exact hproper₁.epss_feed rows
    | some items =>
      cases epss with
      | none => exact hproper₁.kev_feed items
      | some rows => exact (hproper₁.kev_feed items).epss_feed rows
  · intro a ends w hlater hpages hwatermark hends hbrought
    obtain ⟨db₁, hcves, hsame⟩ := NvdUpdate.applyAll_some happly
    refine (hlater.cves hcves hstamped (hpages.yielded j hj).fresh ?_).of_same hsame
    cases hstart : j.start with
    | none => exact hbrought hstart
    | some lo =>
      obtain ⟨hlo, hspool, -⟩ := (h.run j hj).start lo hstart
      rw [hwatermark] at hlo
      cases hlo
      exact fun r hr hrejected => .inl (Nat.le_trans hends (hspool r hr hrejected))

end Exporter

/-! ## Both instances -/

/-- A package was made of the tables it came with, and they come before those of the exporter. -/
structure Built (s : State F R) (p : Package F R × Db F) : Prop where
  made : ∃ kind since site, OfflinePackage.build kind since site = some p.1 ∧ site.db = p.2
  proper : Proper p.2
  known : RepeatedIds.PageInv { s.exporter with db := p.2 }
  later : Later p.2 p.1.ends s.exporter.db
  ends : ∃ w, s.exporter.watermark = some w ∧ p.1.ends ≤ w
  released : p.1.released ≤ s.released

/-- What a package and one that was built after it have to do with each other. -/
def After (p q : Package F R × Db F) : Prop :=
  Later p.2 p.1.ends q.2 ∧ p.1.ends ≤ q.1.ends ∧ p.1.released ≤ q.1.released

/-- What the importer has of the packages, when the last one it imported has a number. -/
structure Imported (s : State F R) (i : Nat) (p : Package F R × Db F) : Prop where
  built : s.packages[i]? = some p
  covers : Covers s.importer.db p.2
  watermark : s.importer.watermark = some p.1.ends
  released : s.importer.released = p.1.released
  brought : ∀ id e, s.importer.db.entry id = some e →
    ∃ k q, k ≤ i ∧ s.packages[k]? = some q ∧ (q.2.entry id).map CveEntry.nvd = some e.nvd

structure Inv [OrderBot R] (s : State F R) : Prop where
  exporter : ExporterInv s.exporter
  proper : Proper s.exporter.db
  packages : ∀ p ∈ s.packages, Built s p
  order : s.packages.Pairwise After
  importer : Proper s.importer.db
  empty : s.imported = none → s.importer.db = .empty ∧ s.importer.watermark = none ∧ s.importer.released = ⊥
  imported : ∀ i, s.imported = some i → ∃ p, Imported s i p

section Both

variable [OrderBot R] {server : Server} {s s' : State F R}

/-- Packages in their order, or a package twice. -/
theorem Inv.after (h : Inv s) {i k : Nat} (hle : k ≤ i) {p q : Package F R × Db F} (hq : s.packages[k]? = some q)
    (hp : s.packages[i]? = some p) : After q p := by
  cases Nat.lt_or_eq_of_le hle with
  | inl hlt =>
    obtain ⟨hk, rfl⟩ := List.getElem?_eq_some_iff.mp hq
    obtain ⟨hi, rfl⟩ := List.getElem?_eq_some_iff.mp hp
    exact List.pairwise_iff_getElem.mp h.order k i hk hi hlt
  | inr heq =>
    rw [heq, hp] at hq
    cases hq
    exact ⟨Later.refl _ _, Nat.le_refl _, le_refl _⟩

/-- A step of the exporter keeps what the packages were made of and what the importer has of them. -/
theorem Inv.online (h : Inv s) {e : NvdUpdate.State F} {released epss_date : R} (hexporter : ExporterInv e)
    (hproper : Proper e.db) (hbuilt : ∀ p ∈ s.packages, Built { s with exporter := e, released := released } p) :
    Inv { s with exporter := e, released := released, epss_date := epss_date } := by
  constructor
  · exact hexporter
  · exact hproper
  · intro p hp
    have hbuilt := hbuilt p hp
    exact ⟨hbuilt.made, hbuilt.proper, hbuilt.known, hbuilt.later, hbuilt.ends, hbuilt.released⟩
  · exact h.order
  · exact h.importer
  · exact h.empty
  · intro i hi
    obtain ⟨p, hp⟩ := h.imported i hi
    exact ⟨p, hp.built, hp.covers, hp.watermark, hp.released, hp.brought⟩

theorem inv_online {a : NvdUpdate.Action F} {released epss_date : R} (h : Inv s)
    (hok : Allowed s (.online a released epss_date)) (hstep : step server s (.online a released epss_date) = some s') :
    Inv s' := by
  simp only [step] at hstep
  split at hstep
  · next hdated =>
    obtain ⟨e, hnext, rfl⟩ := Option.map_eq_some_iff.mp hstep
    have hother {p : Package F R × Db F} (hp : p ∈ s.packages) := pageInv_other (h.packages p hp).known hnext
    obtain ⟨hexporter, ⟨now, kev, epss, j, rfl, hj, happly, hwatermark⟩ | ⟨hother_action, hdb, hwatermark⟩⟩ :=
      exporter_step h.exporter hnext
    · obtain ⟨hproper, hlater⟩ := commit_keeps h.exporter h.proper hj happly
      refine h.online hexporter hproper ?_
      intro p hp
      have hbuilt := h.packages p hp
      obtain ⟨w, hw, hends⟩ := hbuilt.ends
      refine ⟨hbuilt.made, hbuilt.proper, hother hp, ?_, ?_, ?_⟩
      · exact hlater p.2 p.1.ends w hbuilt.later hbuilt.known hw hends (fun hfull r hr => hok j hj hfull p hp r hr)
      · exact ⟨j.finish, hwatermark, Nat.le_trans hends ((h.exporter.run j hj).finish w hw)⟩
      · cases kev with
        | none => exact hbuilt.released
        | some items => exact hbuilt.released.trans (hdated.1 rfl)
    · have hreleased : releasedAfter s released a = s.released := by
        cases a with
        | commit now kev epss => exact absurd rfl (hother_action now kev epss)
        | _ => rfl
      refine h.online hexporter (hdb ▸ h.proper) ?_
      intro p hp
      have hbuilt := h.packages p hp
      refine ⟨hbuilt.made, hbuilt.proper, hother hp, ?_, ?_, ?_⟩
      · exact hdb ▸ hbuilt.later
      · exact hwatermark ▸ hbuilt.ends
      · rw [hreleased]
        exact hbuilt.released
  · cases hstep

/-- A new package is made of the tables of the exporter, and all that were built before come before it. -/
theorem inv_build {kind : Kind} {since : Option Nat} (h : Inv s) (hstep : step server s (.build kind since) = some s') :
    Inv s' := by
  obtain ⟨p, hp, rfl⟩ := Option.map_eq_some_iff.mp hstep
  obtain ⟨ends, hends, hp_ends, -, -, hreleased, -, -⟩ := build_some hp
  have hin {i : Nat} {q : Package F R × Db F} (hq : s.packages[i]? = some q) :
      (s.packages ++ [(p, s.exporter.db)])[i]? = some q := by
    rw [List.getElem?_append_left (List.getElem?_eq_some_iff.mp hq).1]
    exact hq
  constructor
  · exact h.exporter
  · exact h.proper
  · intro q hq
    cases List.mem_append.mp hq with
    | inl hold =>
      have hbuilt := h.packages q hold
      exact ⟨hbuilt.made, hbuilt.proper, hbuilt.known, hbuilt.later, hbuilt.ends, hbuilt.released⟩
    | inr hnew =>
      cases List.mem_singleton.mp hnew
      exact ⟨⟨kind, since, s.site, hp, rfl⟩, h.proper, h.exporter.pages, Later.refl _ _, ⟨ends, hends, Nat.le_of_eq hp_ends⟩,
        le_of_eq hreleased⟩
  · refine List.pairwise_append.mpr ⟨h.order, List.pairwise_singleton _ _, ?_⟩
    intro q hq q' hq'
    cases List.mem_singleton.mp hq'
    have hbuilt := h.packages q hq
    obtain ⟨w, hw, hle⟩ := hbuilt.ends
    have hsame : w = ends := Option.some.inj (hw.symm.trans hends)
    exact ⟨hbuilt.later, by rw [hp_ends, ← hsame]; exact hle, by rw [hreleased]; exact hbuilt.released⟩
  · exact h.importer
  · exact h.empty
  · intro i hi
    obtain ⟨q, hq⟩ := h.imported i hi
    refine ⟨q, hin hq.built, hq.covers, hq.watermark, hq.released, ?_⟩
    intro id e he
    obtain ⟨k, q', hk, hq', hsame⟩ := hq.brought id e he
    exact ⟨k, q', hk, hin hq', hsame⟩

/-- The importer is behind a package that it may import in its order. -/
theorem Inv.behind (h : Inv s) {i : Nat} (hok : ∀ last ∈ s.imported, last ≤ i) {p : Package F R × Db F}
    (hp : s.packages[i]? = some p) {kind : Kind} {since : Option Nat} {site : Site F R}
    (hmade : OfflinePackage.build kind since site = some p.1) (hfresh : fresh p.1 s.importer = true) :
    Behind s.importer.db p.2 kind since ∧ s.importer.released ≤ p.1.released ∧
      ∀ current ∈ s.importer.watermark, current ≤ p.1.ends := by
  have hproper := (h.packages p (List.mem_of_getElem? hp)).proper
  cases hlast : s.imported with
  | none =>
    obtain ⟨hdb, hwatermark, hreleased⟩ := h.empty hlast
    rw [hdb, hwatermark, hreleased]
    refine ⟨⟨?_, ?_⟩, bot_le, ?_⟩
    · intro id e e' he
      cases he
    · intro id e he hselected
      obtain rfl | ⟨t, current, -, hcurrent, -⟩ := fresh_since hmade hfresh
      · cases hselected
      · rw [hwatermark] at hcurrent
        cases hcurrent
    · intro current hcurrent
      cases hcurrent
  | some last =>
    have hle : last ≤ i := hok last hlast
    obtain ⟨q, hq⟩ := h.imported last hlast
    obtain ⟨hlater, hends, hreleased⟩ := h.after hle hq.built hp
    refine ⟨⟨?_, ?_⟩, by rw [hq.released]; exact hreleased, ?_⟩
    · intro id e e' he he' m m' hm hm'
      obtain ⟨k, q', hk, hq', hsame⟩ := hq.brought id e he
      obtain ⟨e₀, he₀, heq⟩ := Option.map_eq_some_iff.mp hsame
      have hstamps := (h.after (Nat.le_trans hk hle) hq' hp).1.older id e₀ e' he₀ he'
      rw [stamp_of_nvd heq] at hstamps
      unfold stamp at hstamps
      rwa [hm, hm'] at hstamps
    · intro id e he hselected
      obtain rfl | ⟨t, current, rfl, hcurrent, ht⟩ := fresh_since hmade hfresh
      · cases hselected
      · rw [hq.watermark] at hcurrent
        cases hcurrent
        obtain ⟨hnvd, hcpes⟩ | hlate := hlater.changed id e he
        · obtain ⟨e₀, he₀, heq⟩ := Option.map_eq_some_iff.mp hnvd
          obtain ⟨e', he', hnvd', -, hcpes'⟩ := hq.covers id e₀ he₀
          rw [he']
          exact ⟨congrArg some (hnvd'.trans heq), hcpes'.trans hcpes⟩
        · exfalso
          obtain ⟨m, hm⟩ := Option.isSome_iff_exists.mp (hproper.stamped id e he)
          unfold stamp at hlate
          rw [hm] at hlate
          cases kind with
          | full => cases hselected
          | delta =>
            simp only [selected, hm, Option.any_some, decide_eq_false_iff_not] at hselected
            exact hselected (Nat.le_trans ht hlate)
    · rw [hq.watermark]
      intro current hcurrent
      cases hcurrent
      exact hends

/-- An import brings the importer to the tables of the package, and what it has beyond them an earlier package
brought. -/
theorem inv_load {i : Nat} {now : Nat → Nat} (h : Inv s) (hok : ∀ last ∈ s.imported, last ≤ i)
    (hstep : step server s (.load i now) = some s') : Inv s' ∧ ∃ p, s.packages[i]? = some p ∧ Covers s'.importer.db p.2 ∧
      ∀ id e, s'.importer.db.entry id = some e → p.2.entry id = none →
        e.kev = .unmarked ∧ ∃ k q, k < i ∧ s.packages[k]? = some q ∧ (q.2.entry id).map CveEntry.nvd = some e.nvd := by
  obtain ⟨p, hp, hload⟩ := Option.bind_eq_some_iff.mp hstep
  obtain ⟨importer, himport, rfl⟩ := Option.map_eq_some_iff.mp hload
  have hbuilt := h.packages p (List.mem_of_getElem? hp)
  obtain ⟨kind, since, site, hmade, hsite⟩ := hbuilt.made
  have hfresh : fresh p.1 s.importer = true := by
    unfold import_package at himport
    by_contra hnot
    rw [if_neg hnot] at himport
    cases himport
  obtain ⟨hbehind, hreleased, hends⟩ := h.behind hok hp hmade hfresh
  rw [← hsite] at hbehind
  have hproper : Proper site.db := hsite ▸ hbuilt.proper
  obtain ⟨hcovers, hbeyond, himporter, hreleased', hwatermark⟩ :=
    import_covers himport hmade hproper h.importer hreleased hbehind
  rw [hsite] at hcovers hbeyond
  -- what was there before, an earlier package brought
  have hearlier (id : CveId) (e : CveEntry F) (he : importer.db.entry id = some e) (hnone : p.2.entry id = none) :
      ∃ k q, k < i ∧ s.packages[k]? = some q ∧ (q.2.entry id).map CveEntry.nvd = some e.nvd := by
    obtain ⟨-, e₀, he₀, hnvd⟩ := hbeyond id e he hnone
    cases hlast : s.imported with
    | none =>
      rw [(h.empty hlast).1] at he₀
      cases he₀
    | some last =>
      obtain ⟨q', hq'⟩ := h.imported last hlast
      obtain ⟨k, q, hk, hq, hsame⟩ := hq'.brought id e₀ he₀
      refine ⟨k, q, Nat.lt_of_le_of_ne (Nat.le_trans hk (hok last hlast)) ?_, hq, hnvd ▸ hsame⟩
      rintro rfl
      rw [hp] at hq
      cases hq
      rw [hnone] at hsame
      cases hsame
  refine ⟨⟨h.exporter, h.proper, ?_, h.order, himporter, fun hnone => (Option.some_ne_none i hnone).elim, ?_⟩, ?_⟩
  · intro q hq
    have hq := h.packages q hq
    exact ⟨hq.made, hq.proper, hq.known, hq.later, hq.ends, hq.released⟩
  · intro i' hi'
    cases hi'
    refine ⟨p, hp, hcovers, ?_, hreleased', ?_⟩
    · dsimp only
      rw [hwatermark]
      split
      · rfl
      · next hnot =>
        cases hcurrent : s.importer.watermark with
        | none =>
          rw [hcurrent] at hnot
          exact absurd rfl hnot
        | some current =>
          rw [hcurrent, Option.all_some, decide_eq_true_eq] at hnot
          rw [Nat.le_antisymm (hends current hcurrent) (Nat.le_of_not_lt hnot)]
    · intro id e he
      cases hin : p.2.entry id with
      | none =>
        obtain ⟨k, q, hk, hq, hsame⟩ := hearlier id e he hin
        exact ⟨k, q, Nat.le_of_lt hk, hq, hsame⟩
      | some e₀ =>
        obtain ⟨e', he', hnvd, -, -⟩ := hcovers id e₀ hin
        have hsame : e' = e := Option.some.inj (he'.symm.trans he)
        refine ⟨i, p, Nat.le_refl _, hp, ?_⟩
        rw [hin, ← hsame, hnvd]
        rfl
  · exact ⟨p, hp, hcovers, fun id e he hnone => ⟨(hbeyond id e he hnone).1, hearlier id e he hnone⟩⟩

theorem inv_step {a : Action F R} (h : Inv s) (hok : Allowed s a) (hstep : step server s a = some s') : Inv s' := by
  cases a with
  | online a released epss_date => exact inv_online h hok hstep
  | build kind since => exact inv_build h hstep
  | load i now => exact (inv_load h hok hstep).1

theorem empty_proper : Proper (Db.empty : Db F) := by
  constructor
  · exact List.nodup_nil
  · exact fun _ _ => rfl
  · intro id e he
    cases he
  · intro id e he
    cases he
  · intro id e he
    cases he
  · intro c hc
    cases hc

theorem inv_begin {clock : Nat} {feed : List (Cve F)} (hids : (feed.map Cve.id).Nodup)
    (hpast : ∀ c ∈ feed, c.lastModified ≤ clock) : Inv (begin clock feed : State F R) := by
  constructor
  · refine ⟨RepeatedIds.pageInv_begin hids hpast, ?_, ?_⟩
    · intro j hj
      cases hj
    · intro w hw
      cases hw
  · exact empty_proper
  · intro p hp
    cases hp
  · exact List.Pairwise.nil
  · exact empty_proper
  · exact fun _ => ⟨rfl, rfl, rfl⟩
  · intro i hi
    cases hi

end Both

/-- However NVD changes, when packages are imported in their order, an instance has after an import every CVE of
the package's time with the same columns, flags and criteria, and any other that it has an earlier package
brought and is not in the catalogue. -/
theorem importer_follows [OrderBot R] (server : Server) (clock : Nat) (feed : List (Cve F)) (hids : (feed.map Cve.id).Nodup)
    (hpast : ∀ c ∈ feed, c.lastModified ≤ clock) {s s' : State F R} {i : Nat} {now : Nat → Nat}
    (h : Reach (step server) Allowed (begin clock feed) s) (hok : Allowed s (.load i now))
    (hstep : step server s (.load i now) = some s') : ∃ p, s.packages[i]? = some p ∧ Covers s'.importer.db p.2 ∧
      ∀ id e, s'.importer.db.entry id = some e → p.2.entry id = none →
        e.kev = .unmarked ∧ ∃ k q, k < i ∧ s.packages[k]? = some q ∧ (q.2.entry id).map CveEntry.nvd = some e.nvd :=
  (inv_load (h.invariant (inv_begin hids hpast) (fun _ _ _ hinv hok hstep => inv_step hinv hok hstep)) hok hstep).2

/-! ## Runs -/

/-- The same names with the same columns of NVD and of the catalogue and the same criteria. -/
def Same (a b : Db F) : Prop :=
  ∀ id, (a.entry id).map CveEntry.nvd = (b.entry id).map CveEntry.nvd ∧
    (a.entry id).map CveEntry.kev = (b.entry id).map CveEntry.kev ∧ a.cpes id = b.cpes id

open NvdUpdate (cveOne cveTwo dataOf oneByOne twoCves)

/-- Steps of the exporter, with a catalogue and scores of no date. -/
def online (actions : List (NvdUpdate.Action Nat)) : List (Action Nat Nat) := actions.map fun a => .online a 0 0

def update (full : Bool) : List (NvdUpdate.Action Nat) :=
  [.tick (5 * second), .start full, .page, .window, .commit (fun _ => 0) none none]

/-- Two CVEs at NVD, of which an update asks one on a page. -/
def twoAtNvd : State Nat Nat := begin twoCves.clock twoCves.feed

/-- The first update, and a package of it that is imported. -/
def loaded : List (Action Nat Nat) :=
  online [.start true, .page, .page, .window, .commit (fun _ => 0) none none] ++ [Action.build .full none, .load 0 fun _ => 0]

/-- NVD rejects a CVE between two packages. -/
def rejectedBetween : List (Action Nat Nat) :=
  loaded ++ online (.tick (5 * second) :: .revise cveTwo true (dataOf cveTwo ['a']) :: update false) ++
    [Action.build .delta (some 10)]

/-- An older package is imported after a newer one. -/
def olderLast : List (Action Nat Nat) :=
  loaded ++ online (.tick (5 * second) :: .revise cveTwo false (dataOf cveTwo ['b']) :: update false) ++
    [Action.build .delta (some 10)] ++
    online (.tick (5 * second) :: .revise cveTwo false (dataOf cveTwo ['c']) :: update false) ++
    [Action.build .delta (some 10), .load 2 fun _ => 0]

/-- A full update brings a change that the update before the first package had missed. -/
def missedBefore : List (Action Nat Nat) :=
  online (NvdUpdate.untilFirstPage ++ .revise cveOne false (dataOf cveOne ['c']) :: NvdUpdate.untilCommit) ++
    [Action.build .full none, .load 0 fun _ => 0] ++
    online [.tick (5 * second), .start true, .page, .page, .window, .commit (fun _ => 0) none none] ++
    [Action.build .delta (some 20)]

/-- After some steps, the import of a package leaves an instance that is not like the exporter was. -/
def Strays (actions : List (Action Nat Nat)) (i : Nat) : Prop :=
  ∃ s s' p, run (step oneByOne) actions twoAtNvd = some s ∧ step oneByOne s (.load i fun _ => 0) = some s' ∧
    s.packages[i]? = some p ∧ ¬ Same s'.importer.db p.2

/-- The columns of a CVE tell that an instance is not like the exporter was. -/
theorem strays_of {actions : List (Action Nat Nat)} {i : Nat}
    (h : (run (step oneByOne) actions twoAtNvd).any (fun s => s.packages[i]?.any fun p =>
      (step oneByOne s (.load i fun _ => 0)).any fun s' =>
        decide ((s'.importer.db.entry cveTwo).map CveEntry.nvd ≠ (p.2.entry cveTwo).map CveEntry.nvd)) = true) :
    Strays actions i := by
  obtain ⟨s, hs, hp⟩ := (Option.any_eq_true _ _).mp h
  obtain ⟨p, hp, hload⟩ := (Option.any_eq_true _ _).mp hp
  obtain ⟨s', hs', hne⟩ := (Option.any_eq_true _ _).mp hload
  exact ⟨s, s', p, hs, hs', hp, fun hsame => of_decide_eq_true hne (hsame cveTwo).1⟩

theorem follows_fails : Strays rejectedBetween 1 ∧ Strays olderLast 1 ∧ Strays missedBefore 1 :=
  ⟨strays_of (by with_unfolding_all decide), strays_of (by with_unfolding_all decide), strays_of
    (by with_unfolding_all decide)⟩

def inOrder (s : State Nat Nat) : Action Nat Nat → Bool
  | .online (.commit _ _ _) _ _ => s.exporter.job.all (fun j => j.start.isSome) || s.packages.isEmpty
  | .load i _ => s.imported.all (fun last => last ≤ i)
  | _ => true

/-- The importer keeps what NVD rejected, and has the rest as the exporter. -/
theorem importer_follows_rejected : ∃ s s' p, Reach (step oneByOne) Allowed twoAtNvd s ∧
    step oneByOne s (.load 1 fun _ => 0) = some s' ∧ s.packages[1]? = some p ∧ Covers s'.importer.db p.2 := by
  have hallowed (s : State Nat Nat) (a : Action Nat Nat) (ha : inOrder s a = true) : Allowed s a := by
    cases a with
    | online a released epss_date =>
      cases a with
      | commit now kev epss =>
        intro j hj hfull p hp
        unfold inOrder at ha
        rw [Option.mem_def.mp hj, Option.all_some, hfull, Option.isSome_none, Bool.false_or, List.isEmpty_iff] at ha
        rw [ha] at hp
        cases hp
      | _ => trivial
    | build kind since => trivial
    | load i now =>
      intro last hlast
      simpa [inOrder, Option.mem_def.mp hlast] using ha
  have hrun : (run (fun s a => if inOrder s a then step oneByOne s a else none) rejectedBetween twoAtNvd).any
      (fun s => decide (s.imported = some 0) && (step oneByOne s (.load 1 fun _ => 0)).isSome) = true := by
    with_unfolding_all decide
  obtain ⟨s, hs, hnext⟩ := (Option.any_eq_true _ _).mp hrun
  rw [Bool.and_eq_true, decide_eq_true_eq] at hnext
  obtain ⟨himported, hload⟩ := hnext
  obtain ⟨s', hs'⟩ := Option.isSome_iff_exists.mp hload
  have hreach : Reach (step oneByOne) Allowed twoAtNvd s := Reach.run hallowed _ .start hs
  have hlast : ∀ last ∈ s.imported, last ≤ 1 := by
    rw [himported]
    rintro last hlast
    cases hlast
    exact Nat.zero_le 1
  obtain ⟨p, hp, hcovers, -⟩ := importer_follows oneByOne _ _ (by decide) (by decide) hreach hlast hs'
  exact ⟨s, s', p, hreach, hs', hp, hcovers⟩

end OfflineFollows
