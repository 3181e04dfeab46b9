import Ngcorion.Cve.Recommend

/-!
# What an upgrade step closes

Each step carries the finding with the latest target of its group. A version that follows the step closes every finding
that the step counts, except where a finding asks for more than the same target.
-/
namespace UpgradeSteps

open Text PaddedOrder DebVersions KeyOrder PackageVersions Recommend
open OsvRecords (Family)

section

variable (dg : UnicodeDigits) (lower : Str → Str) (vendor_link : Str → Str → List Str → Link)

/-! ## The orders of targets -/

def cpeReading : Reading Str PyError where
  Key := List CpeVersions.Element
  read := CpeVersions._key dg lower
  cmp := padLex CpeVersions.compareElement .ending
  Firm _ := True
  soft := soft_of_trans _

inductive Order where
  | cpe
  | packages (family : Family)
  deriving DecidableEq

def Order.reading : Order → Reading Str PyError
  | .cpe => cpeReading dg lower
  | .packages fam => PackageVersions.reading dg fam

/-- The kind of a finding's action, its target and the order in which `_later` compares it -/
def kindOf (r : Row) : Kind := (r.action lower vendor_link).kind

def target (r : Row) : Str := (r.action lower vendor_link).target.getD []

def orderFor (r : Row) : Order :=
  match r.family with
  | some fam => if kindOf lower vendor_link r = .package ∨ kindOf lower vendor_link r = .reboot then .packages fam else .cpe
  | none => .cpe

/-- A version does what the action of the finding asks for. -/
def Meets (r : Row) (v : Str) : Prop :=
  match kindOf lower vendor_link r with
  | .version | .package => ((orderFor lower vendor_link r).reading dg lower).Le (target lower vendor_link r) v
  | .after => ((orderFor lower vendor_link r).reading dg lower).Lt (target lower vendor_link r) v
  | _ => True

/-- Every version that follows a step closes every finding that the step counts. -/
def Closes (out : List (Nat × List Step)) : Prop :=
  ∀ e ∈ out, ∀ s ∈ e.2, s.kind = .version ∨ s.kind = .package ∨ s.kind = .after →
    ∀ v, Meets dg lower vendor_link s.best v → ∀ r ∈ s.counted, Meets dg lower vendor_link r v

/-- The findings of one step are compared in one order, and the targets of rpm packages have a release. -/
structure Uniform (rows : List Row) : Prop where
  order : ∀ r ∈ rows, ∀ s ∈ rows, r.key lower vendor_link = s.key lower vendor_link →
    orderFor lower vendor_link r = orderFor lower vendor_link s
  firm : ∀ r ∈ rows, ((orderFor lower vendor_link r).reading dg lower).FirmAt (target lower vendor_link r)

/-- The findings of a key -/
def members (rows : List Row) (key : Recommend.Key) : List Row := rows.filter fun r => r.key lower vendor_link = key

/-- Where the first finding with the highest target of a group asks for at least that target, no finding of the group asks for
more than it. -/
def NoTie (rows : List Row) : Prop :=
  ∀ s before after, FirstHighest ((orderFor lower vendor_link s).reading dg lower) (target lower vendor_link)
      (members lower vendor_link rows (s.key lower vendor_link)) s before after →
    kindOf lower vendor_link s = .version ∨ kindOf lower vendor_link s = .package →
    ∀ r ∈ rows, r.key lower vendor_link = s.key lower vendor_link → kindOf lower vendor_link r = .after →
      ¬ ((orderFor lower vendor_link s).reading dg lower).Le (target lower vendor_link s) (target lower vendor_link r)

/-- Each group has counted the findings of its key, and its best one is the latest of them. -/
structure Grouped (rows : List Row) (groups : List (Recommend.Key × Group)) : Prop where
  nodup : (Dict.keys groups).Nodup
  none : ∀ key, Dict.get groups key = none → members lower vendor_link rows key = []
  some : ∀ key g, Dict.get groups key = some g → ∃ r rs, members lower vendor_link rows key = r :: rs ∧
    g.counted = r :: rs ∧ greatest (laterRow dg lower vendor_link) r rs = .ok g.best

end

section

variable {dg : UnicodeDigits} {lower : Str → Str} {vendor_link : Str → Str → List Str → Link}

theorem cpe_compare_reading (a b : Str) : CpeVersions.compare dg lower a b = (cpeReading dg lower).compare a b := by
  have hkeys : (cpeReading dg lower).compare a b = (do
      let ka ← CpeVersions._key dg lower a
      let kb ← CpeVersions._key dg lower b
      return sign (padLex CpeVersions.compareElement .ending ka kb)) := rfl
  rw [hkeys]
  cases ha : CpeVersions._key dg lower a with
  | error e => rw [CpeVersions.compare, ha]; rfl
  | ok ka =>
    cases hb : CpeVersions._key dg lower b with
    | error e => rw [CpeVersions.compare, ha, hb]; rfl
    | ok kb => rw [CpeVersions.compare_eq ha hb]; rfl

theorem given_some {text : Option Str} {s : Str} (h : given text = some s) : text = some s ∧ s ≠ [] := by
  rw [given, Option.filter_eq_some_iff] at h
  exact ⟨h.1, by simpa using h.2⟩

/-- An action of the kinds that an upgrade closes has a target. -/
def Targeted (a : Action) : Prop := classOf a.kind = .upgrade → ∃ t, t ≠ [] ∧ a.target = some t

theorem targeted_action (f : Finding) (references : List Str) (kev_action : Option Str) (family : Option Family)
    (end_incl : Option Str) (eol : Option Eol) :
    Targeted (action_for lower vendor_link f references kev_action family end_incl eol) := by
  unfold action_for
  dsimp only
  split
  · split
    · exact fun h => by cases h
    · rename_i hfixed
      have hne := (given_some hfixed).2
      split
      · exact fun _ => ⟨_, hne, rfl⟩
      · exact fun _ => ⟨_, hne, rfl⟩
  · split
    · exact fun h => by cases h
    · split
      · next hfixed => exact fun _ => ⟨_, (given_some (Option.filter_eq_some_iff.mp hfixed).1).2, rfl⟩
      · next hlast => exact fun _ => ⟨_, (given_some hlast).2, rfl⟩
      · exact fun h => by cases h

theorem later_row {r s : Row} (hr : classOf (kindOf lower vendor_link r) = .upgrade)
    (hs : classOf (kindOf lower vendor_link s) = .upgrade) :
    laterRow dg lower vendor_link r s =
      laterBy ((orderFor lower vendor_link r).reading dg lower) (target lower vendor_link) r s := by
  obtain ⟨t, ht, htr⟩ := targeted_action r.finding r.references r.kev_action r.family r.end_incl r.eol hr
  obtain ⟨u, hu, hus⟩ := targeted_action s.finding s.references s.kev_action s.family s.end_incl s.eol hs
  have htr' : (r.action lower vendor_link).target = some t := htr
  have hus' : (s.action lower vendor_link).target = some u := hus
  have hgt : given (some t) = some t := Option.filter_some_pos (decide_eq_true ht)
  have hgu : given (some u) = some u := Option.filter_some_pos (decide_eq_true hu)
  unfold laterRow _later laterBy orderFor target
  rw [htr', hus', hgt, hgu]
  dsimp only [Option.getD_some]
  cases r.family with
  | none => simp only [Order.reading, cpe_compare_reading]
  | some fam =>
    unfold kindOf
    dsimp only
    split
    · simp only [Order.reading, compare_reading]
    · simp only [Order.reading, cpe_compare_reading]

/-! ## Groups -/

theorem add_cases {groups groups' : List (Recommend.Key × Group)} {r : Row}
    (h : add dg lower vendor_link groups r = .ok groups') :
    (Dict.get groups (r.key lower vendor_link) = none ∧
      groups' = Dict.set groups (r.key lower vendor_link) ((Group.new lower vendor_link r).count lower vendor_link r)) ∨
    ∃ g took, Dict.get groups (r.key lower vendor_link) = some g ∧ laterRow dg lower vendor_link r g.best = .ok took ∧
      groups' = Dict.set groups (r.key lower vendor_link)
        ((if took then { g with best := r } else g).count lower vendor_link r) := by
  unfold add at h
  dsimp only at h
  cases hget : Dict.get groups (r.key lower vendor_link) with
  | none =>
    rw [hget] at h
    cases h
    exact .inl ⟨rfl, rfl⟩
  | some g =>
    rw [hget] at h
    cases hl : laterRow dg lower vendor_link r g.best with
    | error e =>
      simp only [hl, bind, Except.bind] at h
      cases h
    | ok took =>
      refine .inr ⟨g, took, rfl, hl, ?_⟩
      cases took <;>
      · simp only [hl, bind, Except.bind] at h
        cases h
        rfl

theorem Grouped.add {rows : List Row} {groups groups' : List (Recommend.Key × Group)} {r : Row}
    (hg : Grouped dg lower vendor_link rows groups) (h : Recommend.add dg lower vendor_link groups r = .ok groups') :
    Grouped dg lower vendor_link (rows ++ [r]) groups' := by
  have hmem : ∀ key, members lower vendor_link (rows ++ [r]) key =
      members lower vendor_link rows key ++ if r.key lower vendor_link = key then [r] else [] := by
    intro key
    by_cases hk : r.key lower vendor_link = key <;> simp [members, hk]
  have hother : ∀ key, r.key lower vendor_link ≠ key →
      members lower vendor_link (rows ++ [r]) key = members lower vendor_link rows key := by
    intro key hne
    rw [hmem, if_neg hne, List.append_nil]
  rcases add_cases h with ⟨hget, rfl⟩ | ⟨g, took, hget, hl, rfl⟩
  · refine ⟨Dict.nodup_set _ _ _ hg.nodup, fun key hkey => ?_, fun key g' hkey => ?_⟩
    · rw [Dict.get_set] at hkey
      split at hkey
      · cases hkey
      · next hne => rw [hother key hne, hg.none key hkey]
    · rw [Dict.get_set] at hkey
      split at hkey
      · next heq =>
        cases hkey
        exact ⟨r, [], by rw [hmem, if_pos heq, hg.none _ (heq ▸ hget)]; rfl, rfl, rfl⟩
      · next hne =>
        rw [hother key hne]
        exact hg.some key g' hkey
  · obtain ⟨first, rest, hrows, hcounted, hbest⟩ := hg.some _ g hget
    refine ⟨Dict.nodup_set _ _ _ hg.nodup, fun key hkey => ?_, fun key g' hkey => ?_⟩
    · rw [Dict.get_set] at hkey
      split at hkey
      · cases hkey
      · next hne => rw [hother key hne, hg.none key hkey]
    · rw [Dict.get_set] at hkey
      split at hkey
      · next heq =>
        cases hkey
        refine ⟨first, rest ++ [r], by rw [hmem, if_pos heq, ← heq, hrows]; rfl, ?_, ?_⟩
        · cases took <;> simp [Group.count, hcounted]
        · rw [greatest_append, hbest]
          cases took <;> simp [Except.bind, greatest, hl, bind, Group.count]
      · next hne =>
        rw [hother key hne]
        exact hg.some key g' hkey

theorem Grouped.run {rows new : List Row} {groups groups' : List (Recommend.Key × Group)}
    (hg : Grouped dg lower vendor_link rows groups) (h : new.foldlM (Recommend.add dg lower vendor_link) groups = .ok groups') :
    Grouped dg lower vendor_link (rows ++ new) groups' := by
  induction new generalizing rows groups with
  | nil =>
    cases h
    rwa [List.append_nil]
  | cons r new ih =>
    rw [List.foldlM_cons] at h
    cases hadd : Recommend.add dg lower vendor_link groups r with
    | error e =>
      rw [hadd] at h
      cases h
    | ok next =>
      rw [hadd] at h
      rw [List.append_cons]
      exact ih (hg.add hadd) h

theorem grouped_nil : Grouped dg lower vendor_link [] [] := ⟨by simp, fun _ _ => rfl, fun _ _ h => by cases h⟩

/-! ## Steps -/

theorem mem_set_append {κ α : Type} [DecidableEq κ] (d : List (κ × List α)) (k : κ) (x y : α) :
    (∃ e ∈ Dict.set d k ((Dict.get d k).getD [] ++ [x]), y ∈ e.2) ↔ (∃ e ∈ d, y ∈ e.2) ∨ y = x := by
  induction d with
  | nil => simp [Dict.set]
  | cons e d ih =>
    obtain ⟨j, ys⟩ := e
    by_cases hk : j = k
    · simp only [Dict.set, Dict.get, hk, if_true, Option.getD_some, List.exists_mem_cons_iff, List.mem_append,
        List.mem_singleton]
      exact or_right_comm
    · simp only [Dict.set, Dict.get, hk, if_false, List.exists_mem_cons_iff, ih, or_assoc]

variable (lower vendor_link) in
theorem mem_foldl_steps (groups : List (Recommend.Key × Group)) (out : List (Nat × List Step)) (s : Step) :
    (∃ e ∈ groups.foldl (fun out e =>
      Dict.set out e.2.asset_id ((Dict.get out e.2.asset_id).getD [] ++ [e.2.step lower vendor_link])) out, s ∈ e.2) ↔
      (∃ e ∈ out, s ∈ e.2) ∨ ∃ e ∈ groups, s = e.2.step lower vendor_link := by
  induction groups generalizing out with
  | nil => simp
  | cons e groups ih => rw [List.foldl_cons, ih, mem_set_append, List.exists_mem_cons_iff, or_assoc]

/-- The steps of a plan are those of its groups. -/
theorem mem_plan {rows : List Row} {out : List (Nat × List Step)} (h : plan dg lower vendor_link rows = .ok out) :
    ∃ groups, Grouped dg lower vendor_link rows groups ∧
      ∀ s, (∃ e ∈ out, s ∈ e.2) ↔ ∃ e ∈ groups, s = e.2.step lower vendor_link := by
  unfold plan at h
  cases hrun : rows.foldlM (Recommend.add dg lower vendor_link) [] with
  | error e =>
    rw [hrun] at h
    cases h
  | ok groups =>
    rw [hrun] at h
    cases h
    refine ⟨groups, by simpa using grouped_nil.run hrun, fun s => ?_⟩
    have hsteps := mem_foldl_steps lower vendor_link groups [] s
    simp only [List.not_mem_nil, false_and, exists_false, false_or] at hsteps
    rw [← hsteps]
    simp only [List.mem_map, exists_exists_and_eq_and, List.mem_insertionSort]

theorem class_of_mem {rows : List Row} {key : Recommend.Key} {r : Row} (h : r ∈ members lower vendor_link rows key) :
    classOf (kindOf lower vendor_link r) = key.2.1 := by
  rw [← of_decide_eq_true (List.mem_filter.mp h).2]
  rfl

/-- Only versions of packages are compared in another order. -/
theorem orderFor_cpe {r : Row} (h : kindOf lower vendor_link r ≠ .package) (h' : kindOf lower vendor_link r ≠ .reboot) :
    orderFor lower vendor_link r = .cpe := by
  unfold orderFor
  split
  · exact if_neg (not_or.mpr ⟨h, h'⟩)
  · rfl

theorem firmAt_cpe (v : Str) : (Order.cpe.reading dg lower).FirmAt v := fun _ _ => trivial

/-- In a group that is compared in one order, the best finding is the first one with the highest target. -/
theorem best_first {rows : List Row} (hu : Uniform dg lower vendor_link rows) {groups : List (Recommend.Key × Group)}
    (hg : Grouped dg lower vendor_link rows groups) {key : Recommend.Key} {g : Group} (hget : Dict.get groups key = some g)
    (hclass : key.2.1 = .upgrade) :
    g.counted = members lower vendor_link rows key ∧ g.best.key lower vendor_link = key ∧
      ∃ before after, FirstHighest ((orderFor lower vendor_link g.best).reading dg lower) (target lower vendor_link)
        (members lower vendor_link rows key) g.best before after := by
  obtain ⟨r, rs, hrows, hcounted, hbest⟩ := hg.some key g hget
  have hmem := greatest_mem hbest
  rw [← hrows] at hmem
  have hkey : g.best.key lower vendor_link = key := by simpa [members] using (List.mem_filter.mp hmem).2
  refine ⟨hcounted.trans hrows.symm, hkey, ?_⟩
  have hin : ∀ s ∈ r :: rs, s ∈ rows ∧ s.key lower vendor_link = key := by
    intro s hs
    rw [← hrows] at hs
    exact ⟨List.mem_of_mem_filter hs, by simpa [members] using (List.mem_filter.mp hs).2⟩
  have horder : ∀ s ∈ r :: rs, orderFor lower vendor_link s = orderFor lower vendor_link g.best := fun s hs =>
    hu.order s (hin s hs).1 g.best (List.mem_of_mem_filter hmem) ((hin s hs).2.trans hkey.symm)
  have hupgrade : ∀ s ∈ r :: rs, classOf (kindOf lower vendor_link s) = .upgrade := by
    intro s hs
    rw [← hrows] at hs
    rw [class_of_mem hs, hclass]
  have hlater : ∀ s ∈ r :: rs, ∀ t ∈ r :: rs, laterRow dg lower vendor_link s t =
      laterBy ((orderFor lower vendor_link g.best).reading dg lower) (target lower vendor_link) s t := by
    intro s hs t ht
    rw [later_row (hupgrade s hs) (hupgrade t ht), horder s hs]
  rw [greatest_congr hlater] at hbest
  rw [hrows]
  exact greatest_first (fun s hs => horder s hs ▸ hu.firm s (hin s hs).1) hbest

theorem upTo_all {β : Type} {o : Reading Str PyError} {target : β → Str} {fs before after : List β} {m : β}
    (h : FirstHighest o target fs m before after) {f : β} (hf : f ∈ fs) : f = m ∨ o.Le (target f) (target m) := by
  rw [h.split] at hf
  rcases List.mem_append.mp hf with hf | hf
  · exact .inr (h.below f hf).le
  · exact (List.mem_cons.mp hf).imp_right (h.upTo f)

/-- What meets the finding with the highest target meets a finding below it. -/
theorem meets_of_best {m r : Row} {v : Str} (horder : orderFor lower vendor_link r = orderFor lower vendor_link m)
    (hfirm : ((orderFor lower vendor_link m).reading dg lower).FirmAt (target lower vendor_link m))
    (hle : ((orderFor lower vendor_link m).reading dg lower).Le (target lower vendor_link r) (target lower vendor_link m))
    (hkind : kindOf lower vendor_link m = .version ∨ kindOf lower vendor_link m = .package ∨
      kindOf lower vendor_link m = .after)
    (htie : kindOf lower vendor_link m = .version ∨ kindOf lower vendor_link m = .package →
      kindOf lower vendor_link r = .after →
        ¬ ((orderFor lower vendor_link m).reading dg lower).Le (target lower vendor_link m) (target lower vendor_link r))
    (hv : Meets dg lower vendor_link m v) : Meets dg lower vendor_link r v := by
  have hcpe : kindOf lower vendor_link r = .after → orderFor lower vendor_link m = .cpe := fun h => by
    rw [← horder, orderFor_cpe (by simp [h]) (by simp [h])]
  have hatLeast : ((orderFor lower vendor_link m).reading dg lower).Le (target lower vendor_link r) v := by
    rcases hkind with h | h | h
    · rw [Meets, h] at hv
      exact hle.trans hfirm hv
    · rw [Meets, h] at hv
      exact hle.trans hfirm hv
    · rw [Meets, h] at hv
      exact hle.trans_lt hv
  unfold Meets
  cases hr : kindOf lower vendor_link r with
  | version => exact horder ▸ hatLeast
  | package => exact horder ▸ hatLeast
  | after =>
    have ho := hcpe hr
    rw [ho] at htie hle
    dsimp only
    rw [horder, ho]
    rw [Meets, ho] at hv
    rcases hkind with h | h | h
    · rw [h] at hv
      exact lt_of_lt_of_le (firmAt_cpe v) (hle.lt (htie (.inl h) hr)) hv
    · rw [h] at hv
      exact lt_of_lt_of_le (firmAt_cpe v) (hle.lt (htie (.inr h) hr)) hv
    · rw [h] at hv
      exact lt_of_le_of_lt (firmAt_cpe _) hle hv
  | _ => trivial

theorem exists_step {rows : List Row} {out : List (Nat × List Step)} (h : plan dg lower vendor_link rows = .ok out) {r : Row}
    (hr : r ∈ rows) : ∃ groups g, Grouped dg lower vendor_link rows groups ∧
      Dict.get groups (r.key lower vendor_link) = some g ∧ ∃ e ∈ out, g.step lower vendor_link ∈ e.2 := by
  obtain ⟨groups, hg, hsteps⟩ := mem_plan h
  have hmem : r ∈ members lower vendor_link rows (r.key lower vendor_link) := List.mem_filter.mpr ⟨hr, by simp⟩
  cases hget : Dict.get groups (r.key lower vendor_link) with
  | none =>
    rw [hg.none _ hget] at hmem
    cases hmem
  | some g => exact ⟨groups, g, hg, hget, (hsteps _).mpr ⟨_, Dict.mem_of_get _ _ _ hget, rfl⟩⟩

/-- Where each group is compared in one order, the plan's steps close what they count exactly when no group has a tie. -/
theorem closes_iff {rows : List Row} {out : List (Nat × List Step)} (h : plan dg lower vendor_link rows = .ok out)
    (hu : Uniform dg lower vendor_link rows) : Closes dg lower vendor_link out ↔ NoTie dg lower vendor_link rows := by
  constructor
  · intro hcloses s before after hfirst hkind r hr hkey hafter hle
    obtain ⟨groups, g, hg, hget, e, he, hstep⟩ := exists_step h (List.mem_of_mem_filter hfirst.mem)
    have hclass : (s.key lower vendor_link).2.1 = .upgrade := by
      rw [← class_of_mem hfirst.mem]
      rcases hkind with hk | hk <;> rw [hk] <;> rfl
    obtain ⟨hcounted, hbest, before', after', hfirst'⟩ := best_first hu hg hget hclass
    have hin : g.best ∈ rows := List.mem_of_mem_filter hfirst'.mem
    rw [hu.order _ hin s (List.mem_of_mem_filter hfirst.mem) hbest] at hfirst'
    have hbs : g.best = s := hfirst'.unique hfirst
    have hrefl : ((orderFor lower vendor_link s).reading dg lower).Le (target lower vendor_link s) (target lower vendor_link s) := by
      obtain ⟨ks, -, hs, -, -⟩ := hle
      exact ⟨ks, ks, hs, hs, Soft.isLE_self (Reading.soft _) ks⟩
    have hs : Meets dg lower vendor_link s (target lower vendor_link s) := by
      unfold Meets
      rcases hkind with hk | hk <;> rw [hk] <;> exact hrefl
    have hstepKind : (g.step lower vendor_link).kind = kindOf lower vendor_link s := by rw [← hbs]; rfl
    have hcount : r ∈ (g.step lower vendor_link).counted := by
      change r ∈ g.counted
      rw [hcounted]
      exact List.mem_filter.mpr ⟨hr, by simpa using hkey⟩
    have hmeets := hcloses e he _ hstep (by rw [hstepKind]; exact hkind.imp_right .inl) (target lower vendor_link s)
      (hbs ▸ hs) r hcount
    rw [Meets, hafter] at hmeets
    rw [← hu.order r hr s (List.mem_of_mem_filter hfirst.mem) hkey] at hle
    exact hmeets.not_le hle
  · intro htie e he s hs hkind v hv r hr
    obtain ⟨groups, hg, hsteps⟩ := mem_plan h
    obtain ⟨⟨key, g⟩, hmem, rfl⟩ := (hsteps s).mp ⟨e, he, hs⟩
    have hget := Dict.get_of_mem _ hg.nodup _ _ hmem
    obtain ⟨first, rest, hrows, -, hbest⟩ := hg.some key g hget
    have hclass : key.2.1 = .upgrade := by
      have hin := greatest_mem hbest
      rw [← hrows] at hin
      rw [← class_of_mem hin]
      rcases hkind with hk | hk | hk <;> rw [show kindOf lower vendor_link g.best = _ from hk] <;> rfl
    obtain ⟨hcounted, hbestKey, before, after, hfirst⟩ := best_first hu hg hget hclass
    have hr' : r ∈ members lower vendor_link rows key := hcounted ▸ hr
    have hrow : r ∈ rows := List.mem_of_mem_filter hr'
    have hkey : r.key lower vendor_link = g.best.key lower vendor_link := by
      rw [hbestKey]
      simpa [members] using (List.mem_filter.mp hr').2
    have hin : g.best ∈ rows := List.mem_of_mem_filter hfirst.mem
    rcases upTo_all hfirst hr' with rfl | hle
    · exact hv
    · exact meets_of_best (hu.order r hrow g.best hin hkey) (hu.firm _ hin) hle hkind
        (fun hk => htie g.best before after (hbestKey ▸ hfirst) hk r hrow hkey) hv

end

end UpgradeSteps
