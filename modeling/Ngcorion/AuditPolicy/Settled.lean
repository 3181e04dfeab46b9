import Ngcorion.AuditPolicy.Settling

/-!
# Why scores settle

A session that does not wait was marked by a policy that differs from the rules in
force only where a process is still to mark the sessions of the rule, or is still
to end a rule whose time is over. A pass under way knows as much of the sessions it
is going to write, as long as nobody marks them behind its back.
-/
namespace Settled

open Text Transition Scoring Settling
open Evidence (DeviceType)

variable {Score : Type}

/-! ## Versions of a rule -/

theorem SameRule.refl (r : Rule) : SameRule r r := rfl

theorem SameRule.id {r r' : Rule} (h : SameRule r r') : r'.id = r.id := by rw [show r' = _ from h]

theorem SameRule.benchmark {r r' : Rule} (h : SameRule r r') : r'.benchmark = r.benchmark := by rw [show r' = _ from h]

theorem SameRule.expiresAt {r r' : Rule} (h : SameRule r r') : r'.expiresAt = r.expiresAt := by rw [show r' = _ from h]

theorem SameRule.symm {r r' : Rule} (h : SameRule r r') : SameRule r' r := by
  unfold SameRule
  rw [show r' = _ from h]

theorem SameRule.trans {r r' r'' : Rule} (h : SameRule r r') (h' : SameRule r' r'') : SameRule r r'' := by
  unfold SameRule
  rw [show r'' = _ from h', show r' = _ from h]

/-- The time of the rule is over. -/
def ranOut (r : Rule) (now : Nat) : Prop := r.expiresAt.any (· ≤ now) = true

theorem ranOut_mono {r : Rule} {now later : Nat} (h : ranOut r now) (hle : now ≤ later) : ranOut r later := by
  obtain ⟨e, he, hnow⟩ := (Option.any_eq_true _ _).mp h
  refine (Option.any_eq_true _ _).mpr ⟨e, he, ?_⟩
  simp only [decide_eq_true_eq] at hnow ⊢
  omega

theorem inForce_iff {r : Rule} {now : Nat} : r.inForce now = true ↔ r.status = .approved ∧ ¬ ranOut r now := by
  cases he : r.expiresAt with
  | none => simp [Rule.inForce, ranOut, he]
  | some e => simp [Rule.inForce, ranOut, he]

/-! ## What is still to come -/

/-- A process is still to mark the sessions of the rule. -/
def Deciding (s : State Score) (id : Nat) : Prop := Phase.decided id ∈ s.processes

/-- The process will end the rule, or has done so without a commit. -/
def Ends (clock : Nat) (r : Rule) : Phase → Prop
  | .idle => False
  | .decided _ => ranOut r clock
  | .marked => ranOut r clock
  | .entered now _ => ranOut r now
  | .locked now _ => ranOut r now
  | .expired p => r.id ∈ p.ended
  | .loaded p => r.id ∈ p.ended
  | .selected p => r.id ∈ p.ended
  | .written p => r.id ∈ p.ended
  | .stamped p => r.id ∈ p.ended

def WillEnd (s : State Score) (r : Rule) : Prop := ∃ ph ∈ s.processes, Ends s.clock r ph

def InPolicy (policy : List Rule) (id : Nat) : Prop := ∃ r ∈ policy, r.id = id

/-- The rules of a policy are rows of the table. -/
def Known (s : State Score) (policy : List Rule) : Prop := ∀ r ∈ policy, ∃ r' ∈ s.rules, SameRule r r'

/-- The policy has the rule as it is, or something is still to come. -/
def Current (s : State Score) (policy : List Rule) (r : Rule) : Prop :=
  Deciding s r.id ∨ (InPolicy policy r.id → r.status = .approved) ∧
    (r.status = .approved → InPolicy policy r.id ∨ WillEnd s r)

/-- The same for the policy of a pass, once what the pass has done is committed. -/
def PassCurrent (s : State Score) (p : Pass) (r : Rule) : Prop :=
  Deciding s r.id ∨ (InPolicy p.policy r.id → r.status = .approved ∧ r.id ∉ p.ended) ∧
    (r.status = .approved → r.id ∉ p.ended → InPolicy p.policy r.id ∨ WillEnd s r)

/-- The benchmarks whose sessions a pass has written or is going to write. -/
def Scope (s : State Score) (benchmark : DeviceType) : Phase → Prop
  | .loaded _ => True
  | .selected p => p.policy = [] ∨ touches s p.ids benchmark = true
  | .written p => p.policy = [] ∨ touches s p.ids benchmark = true
  | .stamped p => touches s (p.ids ++ p.stamps) benchmark = true
  | _ => False

structure PassInv (s : State Score) (ph : Phase) (p : Pass) : Prop where
  now_le : p.now ≤ s.clock
  endedDrawn : ∀ id ∈ p.ended, ∃ r ∈ s.rules, r.id = id
  ended : ∀ r ∈ s.rules, r.id ∈ p.ended → ∀ t ∈ s.sessions, t.benchmark = r.benchmark →
    t.id ∈ p.marks ∨ t.checked = false
  known : Known s p.policy
  current : ∀ r ∈ s.rules, Scope s r.benchmark ph → PassCurrent s p r
  /-- A rule approved after its time, when the pass has looked for such rules already. -/
  late : ph = .expired p → ∀ r ∈ s.rules, r.status = .approved → r.id ∉ p.ended → ranOut r p.now →
    Deciding s r.id ∨ WillEnd s r
  drawn : ∀ id ∈ p.ids ++ p.stamps, ∃ t ∈ s.sessions, t.id = id
  unstamped : ph ≠ .stamped p → p.stamps = []
  stamps : ∀ t ∈ s.sessions, t.id ∈ p.stamps → t.policyOptional = 0 ∧ t.policyExcluded = 0 ∧ p.policy = []

structure Inv (cfg : Config Score) (s : State Score) : Prop where
  ruleIds : (s.rules.map Rule.id).Nodup
  drawn : ∀ r ∈ s.rules, r.id ≤ s.rules.length
  sessionIds : (s.sessions.map Session.id).Nodup
  lock : ∀ (i j : Nat) (ph ph' : Phase), s.processes[i]? = some ph → s.processes[j]? = some ph' →
    ph.holds = true → ph'.holds = true → i = j
  entered : ∀ now limit, .entered now limit ∈ s.processes ∨ .locked now limit ∈ s.processes → now ≤ s.clock
  consistent : ∀ t ∈ s.sessions, Consistent cfg t
  scored : ∀ t ∈ s.sessions, t.checked = true → ∃ policy, MarkedBy cfg policy t ∧ Known s policy ∧
    ∀ r ∈ s.rules, r.benchmark = t.benchmark → Current s policy r
  passes : ∀ (i : Nat) (ph : Phase) (p : Pass), s.processes[i]? = some ph → ph.pass = some p → PassInv s ph p

theorem holds_of_pass {ph : Phase} {p : Pass} (h : ph.pass = some p) : ph.holds = true := by
  cases ph <;> simp [Phase.pass] at h <;> rfl

theorem Ends.mono {clock clock' : Nat} {r r' : Rule} {ph : Phase} (hsame : SameRule r r') (hle : clock ≤ clock')
    (h : Ends clock r ph) : Ends clock' r' ph := by
  have hover : ∀ {now later}, now ≤ later → ranOut r now → ranOut r' later := by
    intro now later hnow ho
    have := ranOut_mono ho hnow
    rwa [ranOut, ← SameRule.expiresAt hsame] at this
  cases ph <;> simp only [Ends, SameRule.id hsame] at h ⊢
  all_goals first
    | exact h
    | exact hover hle h
    | exact hover (Nat.le_refl _) h

/-! ## Steps that write no session -/

/-- A step after which nothing that was to come is lost; rules change only where a
process is about to mark their sessions, and new sessions wait. -/
structure Frame (cfg : Config Score) (s s' : State Score) : Prop where
  clock : s.clock ≤ s'.clock
  rules : ∀ r' ∈ s'.rules, (∃ r ∈ s.rules, SameRule r r' ∧
    ((r'.status = .approved ↔ r.status = .approved) ∨ Deciding s' r'.id)) ∨
      r'.status ≠ .approved ∧ ∀ r ∈ s.rules, r.id ≠ r'.id
  back : ∀ r ∈ s.rules, ∃ r' ∈ s'.rules, SameRule r r'
  sessions : ∀ t' ∈ s'.sessions, t' ∈ s.sessions ∨
    t'.checked = false ∧ Consistent cfg t' ∧ ∀ t ∈ s.sessions, t.id ≠ t'.id
  kept : ∀ t ∈ s.sessions, t ∈ s'.sessions
  deciding : ∀ id, Deciding s id → Deciding s' id
  ends : ∀ r ∈ s.rules, ∀ r', SameRule r r' → r.status = .approved → WillEnd s r → WillEnd s' r'

section Frame

variable {cfg : Config Score} {s s' : State Score} {policy : List Rule} {ph : Phase} {p : Pass}

theorem Frame.known (h : Frame cfg s s') (hk : Known s policy) : Known s' policy := by
  intro r hr
  obtain ⟨r', hr', hsame⟩ := hk r hr
  obtain ⟨r'', hr'', hsame'⟩ := h.back r' hr'
  exact ⟨r'', hr'', SameRule.trans hsame hsame'⟩

/-- A rule that is not in the table is in no policy. -/
theorem not_inPolicy (hk : Known s policy) {id : Nat} (h : ∀ r ∈ s.rules, r.id ≠ id) : ¬ InPolicy policy id := by
  rintro ⟨r, hr, rfl⟩
  obtain ⟨r', hr', hsame⟩ := hk r hr
  exact h r' hr' (SameRule.id hsame)

theorem Frame.current (h : Frame cfg s s') (hk : Known s policy) {r' : Rule} (hr' : r' ∈ s'.rules)
    (hcur : ∀ r ∈ s.rules, SameRule r r' → Current s policy r) : Current s' policy r' := by
  rcases h.rules r' hr' with ⟨r, hr, hsame, hstatus | hdeciding⟩ | ⟨hstatus, hnew⟩
  · have hid := SameRule.id hsame
    rcases hcur r hr hsame with hdeciding | ⟨hin, happroved⟩
    · exact Or.inl (hid ▸ h.deciding _ hdeciding)
    · refine Or.inr ⟨fun hp => hstatus.mpr (hin (hid ▸ hp)), fun ha => ?_⟩
      rcases happroved (hstatus.mp ha) with hp | hends
      · exact Or.inl (hid ▸ hp)
      · exact Or.inr (h.ends r hr r' hsame (hstatus.mp ha) hends)
  · exact Or.inl hdeciding
  · exact Or.inr ⟨fun hp => absurd hp (not_inPolicy hk hnew), fun ha => absurd ha hstatus⟩

theorem Frame.touches (h : Frame cfg s s') {ids : List Nat} (hids : ∀ id ∈ ids, ∃ t ∈ s.sessions, t.id = id)
    {benchmark : DeviceType} (ht : touches s' ids benchmark = true) : touches s ids benchmark = true := by
  obtain ⟨t, htmem, htb⟩ := List.any_eq_true.mp ht
  rcases h.sessions t htmem with htmem | ⟨-, -, hnew⟩
  · exact List.any_eq_true.mpr ⟨t, htmem, htb⟩
  · simp only [Bool.and_eq_true, List.contains_iff_mem] at htb
    obtain ⟨u, hu, huid⟩ := hids t.id htb.2
    exact absurd huid (hnew u hu)

theorem Frame.scope (h : Frame cfg s s') (hp : PassInv s ph p) (hpass : ph.pass = some p) {benchmark : DeviceType}
    (hs : Scope s' benchmark ph) : Scope s benchmark ph := by
  have hids : ∀ id ∈ p.ids, ∃ t ∈ s.sessions, t.id = id := fun id hid => hp.drawn id (List.mem_append_left _ hid)
  cases ph <;> simp only [Phase.pass, Option.some.injEq, reduceCtorEq] at hpass
  all_goals subst hpass
  case expired => exact hs
  case loaded => trivial
  case selected => exact hs.imp_right (h.touches hids)
  case written => exact hs.imp_right (h.touches hids)
  case stamped => exact h.touches hp.drawn hs

theorem Frame.pass (h : Frame cfg s s') (hp : PassInv s ph p) (hpass : ph.pass = some p) : PassInv s' ph p where
  now_le := Nat.le_trans hp.now_le h.clock
  known := h.known hp.known
  ended := by
    intro r' hr' hended t' ht' hbenchmark
    rcases h.sessions t' ht' with ht | ⟨hchecked, -⟩
    · rcases h.rules r' hr' with ⟨r, hr, hsame, -⟩ | ⟨-, hnew⟩
      · exact hp.ended r hr (SameRule.id hsame ▸ hended) t' ht (hbenchmark.trans (SameRule.benchmark hsame))
      · obtain ⟨r, hr, hid⟩ := hp.endedDrawn r'.id hended
        exact absurd hid (hnew r hr)
    · exact Or.inr hchecked
  endedDrawn := by
    intro id hid
    obtain ⟨r, hr, rfl⟩ := hp.endedDrawn id hid
    obtain ⟨r', hr', hsame⟩ := h.back r hr
    exact ⟨r', hr', SameRule.id hsame⟩
  current := by
    intro r' hr' hs
    rcases h.rules r' hr' with ⟨r, hr, hsame, hstatus | hdeciding⟩ | ⟨hstatus, hnew⟩
    · have hid := SameRule.id hsame
      rw [SameRule.benchmark hsame] at hs
      rcases hp.current r hr (h.scope hp hpass hs) with hdeciding | ⟨hin, happroved⟩
      · exact Or.inl (hid ▸ h.deciding _ hdeciding)
      · refine Or.inr ⟨fun hp => ?_, fun ha hended => ?_⟩
        · rw [hid] at hp ⊢
          exact (hin hp).imp_left hstatus.mpr
        · rw [hid] at hended ⊢
          exact (happroved (hstatus.mp ha) hended).imp_right (h.ends r hr r' hsame (hstatus.mp ha))
    · exact Or.inl hdeciding
    · exact Or.inr ⟨fun hin => absurd hin (not_inPolicy hp.known hnew), fun ha => absurd ha hstatus⟩
  late := by
    intro hph r' hr' ha hended hover
    rcases h.rules r' hr' with ⟨r, hr, hsame, hstatus | hdeciding⟩ | ⟨hstatus, -⟩
    · rw [SameRule.id hsame] at hended ⊢
      have hover' : ranOut r p.now := by
        rw [ranOut, ← SameRule.expiresAt hsame]
        exact hover
      exact (hp.late hph r hr (hstatus.mp ha) hended hover').imp (h.deciding _)
        (h.ends r hr r' hsame (hstatus.mp ha))
    · exact Or.inl hdeciding
    · exact absurd ha hstatus
  drawn := by
    intro id hid
    obtain ⟨t, ht, htid⟩ := hp.drawn id hid
    exact ⟨t, h.kept t ht, htid⟩
  unstamped := hp.unstamped
  stamps := by
    intro t' ht' hstamp
    rcases h.sessions t' ht' with ht | ⟨-, -, hnew⟩
    · exact hp.stamps t' ht hstamp
    · obtain ⟨u, hu, huid⟩ := hp.drawn t'.id (List.mem_append_right _ hstamp)
      exact absurd huid (hnew u hu)

/-- What such a step keeps. -/
theorem Frame.inv (h : Frame cfg s s') (hinv : Inv cfg s) (hrules : (s'.rules.map Rule.id).Nodup)
    (hdrawn : ∀ r ∈ s'.rules, r.id ≤ s'.rules.length) (hsessions : (s'.sessions.map Session.id).Nodup)
    (hlock : ∀ (i j : Nat) (ph ph' : Phase), s'.processes[i]? = some ph → s'.processes[j]? = some ph' →
      ph.holds = true → ph'.holds = true → i = j)
    (hentered : ∀ now limit, .entered now limit ∈ s'.processes ∨ .locked now limit ∈ s'.processes → now ≤ s'.clock)
    (hpasses : ∀ (i : Nat) (ph : Phase) (p : Pass), s'.processes[i]? = some ph → ph.pass = some p → PassInv s ph p) :
    Inv cfg s' where
  ruleIds := hrules
  drawn := hdrawn
  sessionIds := hsessions
  lock := hlock
  entered := hentered
  consistent := by
    intro t' ht'
    rcases h.sessions t' ht' with ht | ⟨-, hconsistent, -⟩
    · exact hinv.consistent t' ht
    · exact hconsistent
  scored := by
    intro t' ht' hchecked
    rcases h.sessions t' ht' with ht | ⟨hwaits, -⟩
    · obtain ⟨policy, hmarked, hknown, hcurrent⟩ := hinv.scored t' ht hchecked
      refine ⟨policy, hmarked, h.known hknown, fun r' hr' hbenchmark => h.current hknown hr' fun r hr hsame => ?_⟩
      exact hcurrent r hr ((SameRule.benchmark hsame).symm.trans hbenchmark)
    · rw [hchecked] at hwaits
      simp at hwaits
  passes := fun i ph p hi hpass => h.pass (hpasses i ph p hi hpass) hpass

end Frame

section Moves

variable {cfg : Config Score} {s : State Score} {i : Nat} {ph ph' : Phase}

/-- What is to come stays to come when a process moves on to where it still comes. -/
theorem willEnd_set (hi : s.processes[i]? = some ph) {rules : List Rule} {sessions : List (Session Score)} {clock : Nat}
    (hclock : s.clock ≤ clock) {r r' : Rule} (hsame : SameRule r r') (hends : Ends s.clock r ph → Ends clock r' ph')
    (h : WillEnd s r) : WillEnd ⟨rules, sessions, s.processes.set i ph', clock⟩ r' := by
  obtain ⟨other, hother, he⟩ := h
  by_cases heq : other = ph
  · exact ⟨ph', mem_set_self hi ph', hends (heq ▸ he)⟩
  · exact ⟨other, mem_set_of_ne hi hother heq ph', he.mono hsame hclock⟩

theorem deciding_set (hi : s.processes[i]? = some ph) (hph : ∀ id, ph ≠ .decided id) {rules : List Rule}
    {sessions : List (Session Score)} {clock id : Nat} (h : Deciding s id) :
    Deciding ⟨rules, sessions, s.processes.set i ph', clock⟩ id :=
  mem_set_of_ne hi h (Ne.symm (hph id)) ph'

/-- At most one process holds the lock when one takes it that nobody holds. -/
theorem lock_set (hinv : Inv cfg s) (hi : s.processes[i]? = some ph)
    (hlock : ph'.holds = true → ph.holds = true ∨ s.processes.any Phase.holds = false) (j k : Nat) (a b : Phase)
    (hj : (s.processes.set i ph')[j]? = some a) (hk : (s.processes.set i ph')[k]? = some b) (ha : a.holds = true)
    (hb : b.holds = true) : j = k := by
  -- a holder beside the process that moved is the only one there was
  have hother : ∀ {l c}, s.processes[l]? = some c → c.holds = true → ph'.holds = true → l = i := by
    intro l c hl hc hholds
    rcases hlock hholds with hph | hnone
    · exact hinv.lock l i c ph hl hi hc hph
    · have hany := List.any_eq_false.mp hnone c (List.mem_iff_getElem?.mpr ⟨l, hl⟩)
      exact absurd hc hany
  rcases getElem_set_cases hj with ⟨hji, hja⟩ | ⟨hji, hj'⟩
  · rcases getElem_set_cases hk with ⟨hki, -⟩ | ⟨hki, hk'⟩
    · rw [hji, hki]
    · exact absurd (hother hk' hb (hja ▸ ha)) hki
  · rcases getElem_set_cases hk with ⟨-, hkb⟩ | ⟨-, hk'⟩
    · exact absurd (hother hj' ha (hkb ▸ hb)) hji
    · exact hinv.lock j k a b hj' hk' ha hb

/-- A process moves on, and the time with it. -/
theorem inv_move (hinv : Inv cfg s) (hi : s.processes[i]? = some ph) (hph : ∀ id, ph ≠ .decided id) {clock : Nat}
    (hclock : s.clock ≤ clock)
    (hends : ∀ r ∈ s.rules, r.status = .approved → Ends s.clock r ph → Ends clock r ph')
    (hlock : ph'.holds = true → ph.holds = true ∨ s.processes.any Phase.holds = false)
    (hentered : ∀ now limit, ph' = .entered now limit ∨ ph' = .locked now limit → now ≤ clock)
    (hpass : ∀ p, ph'.pass = some p → PassInv s ph' p) :
    Inv cfg (setPhase { s with clock := clock } i ph') := by
  have hframe : Frame cfg s (setPhase { s with clock := clock } i ph') := by
    refine ⟨hclock, fun r hr => Or.inl ⟨r, hr, SameRule.refl r, Or.inl Iff.rfl⟩, fun r hr => ⟨r, hr, SameRule.refl r⟩,
      fun t ht => Or.inl ht, fun t ht => ht, fun id h => deciding_set hi hph h, ?_⟩
    intro r hr r' hsame ha h
    refine willEnd_set hi hclock hsame (fun he => ?_) h
    exact (hends r hr ha he).mono hsame (Nat.le_refl _)
  refine hframe.inv hinv hinv.ruleIds hinv.drawn hinv.sessionIds (@lock_set Score cfg s i ph ph' hinv hi hlock) ?_ ?_
  · intro now limit h
    have hold : ∀ c : Phase, c ∈ s.processes.set i ph' → c ∈ s.processes ∨ c = ph' := fun c hc =>
      List.mem_or_eq_of_mem_set hc
    rcases h with h | h
    · rcases hold _ h with h | h
      · exact Nat.le_trans (hinv.entered now limit (Or.inl h)) hclock
      · exact hentered now limit (Or.inl h.symm)
    · rcases hold _ h with h | h
      · exact Nat.le_trans (hinv.entered now limit (Or.inr h)) hclock
      · exact hentered now limit (Or.inr h.symm)
  · intro j other p hj hother
    rcases getElem_set_cases hj with ⟨-, rfl⟩ | ⟨-, hj⟩
    · exact hpass p hother
    · exact hinv.passes j other p hj hother

/-! ## A pass moves on -/

variable {p : Pass}

theorem rule_unique (hinv : Inv cfg s) {r r' : Rule} (hr : r ∈ s.rules) (hr' : r' ∈ s.rules) (h : r.id = r'.id) :
    r = r' := List.inj_on_of_nodup_map hinv.ruleIds hr hr' h

theorem session_unique (hinv : Inv cfg s) {t t' : Session Score} (ht : t ∈ s.sessions) (ht' : t' ∈ s.sessions)
    (h : t.id = t'.id) : t = t' := List.inj_on_of_nodup_map hinv.sessionIds ht ht' h

theorem mem_expire_ended {now : Nat} {limit : Option Nat} {r : Rule} (hr : r ∈ s.rules)
    (ha : r.status = .approved) (ho : ranOut r now) : r.id ∈ (expire s now limit).ended :=
  List.mem_map_of_mem (List.mem_filter.mpr ⟨hr, by simpa [ha, ranOut] using ho⟩)

theorem passInv_expire (hinv : Inv cfg s) {now : Nat} {limit : Option Nat} (hnow : now ≤ s.clock) :
    PassInv s (.expired (expire s now limit)) (expire s now limit) where
  now_le := hnow
  endedDrawn := by
    intro id hid
    obtain ⟨r, hr, rfl⟩ := List.mem_map.mp hid
    exact ⟨r, (List.mem_filter.mp hr).1, rfl⟩
  ended := by
    intro r hr hended t ht hbenchmark
    obtain ⟨r', hr', hid⟩ := List.mem_map.mp hended
    have heq : r' = r := rule_unique hinv (List.mem_filter.mp hr').1 hr hid
    refine Or.inl (List.mem_map_of_mem (List.mem_filter.mpr ⟨ht, List.any_eq_true.mpr ⟨r', hr', ?_⟩⟩))
    simp [heq, hbenchmark]
  known := by simp [Known, expire]
  current := fun _ _ hscope => hscope.elim
  late := fun _ r hr ha hended ho => absurd (mem_expire_ended hr ha ho) hended
  drawn := by simp [expire]
  unstamped := fun _ => rfl
  stamps := by simp [expire]

theorem inPolicy_load (hinv : Inv cfg s) {r : Rule} (hr : r ∈ s.rules) :
    InPolicy (load s p).policy r.id ↔ r.inForce p.now = true ∧ r.id ∉ p.ended := by
  constructor
  · rintro ⟨r', hr', hid⟩
    obtain ⟨hmem, hforce⟩ := List.mem_filter.mp hr'
    rw [rule_unique hinv hmem hr hid] at hforce
    simpa using hforce
  · intro h
    exact ⟨r, List.mem_filter.mpr ⟨hr, by simpa using h⟩, rfl⟩

theorem passInv_load (hinv : Inv cfg s) (h : PassInv s (.expired p) p) : PassInv s (.loaded (load s p)) (load s p) where
  now_le := h.now_le
  endedDrawn := h.endedDrawn
  ended := h.ended
  known := fun r hr => ⟨r, (List.mem_filter.mp hr).1, SameRule.refl r⟩
  current := by
    intro r hr _
    by_cases hin : InPolicy (load s p).policy r.id
    · obtain ⟨hforce, hended⟩ := (inPolicy_load hinv hr).mp hin
      exact Or.inr ⟨fun _ => ⟨(inForce_iff.mp hforce).1, hended⟩, fun _ _ => Or.inl hin⟩
    · by_cases hlate : r.status = .approved ∧ r.id ∉ p.ended
      · have ho : ranOut r p.now := by
          by_contra hno
          exact hin ((inPolicy_load hinv hr).mpr ⟨inForce_iff.mpr ⟨hlate.1, hno⟩, hlate.2⟩)
        rcases h.late rfl r hr hlate.1 hlate.2 ho with hdeciding | hends
        · exact Or.inl hdeciding
        · exact Or.inr ⟨fun hp => absurd hp hin, fun _ _ => Or.inr hends⟩
      · exact Or.inr ⟨fun hp => absurd hp hin, fun ha hended => absurd ⟨ha, hended⟩ hlate⟩
  late := by simp
  drawn := h.drawn
  unstamped := fun _ => h.unstamped (by simp)
  stamps := by
    intro t _ hstamp
    have hnone : p.stamps = [] := h.unstamped (by simp)
    rw [show (load s p).stamps = p.stamps from rfl, hnone] at hstamp
    simp at hstamp

theorem mem_limitTo {α : Type} {limit : Option Nat} {l : List α} {a : α} (h : a ∈ limitTo limit l) : a ∈ l := by
  unfold limitTo at h
  split at h
  · exact h
  · exact h
  · exact List.mem_of_mem_take h

theorem mem_select {id : Nat} (h : id ∈ (select s p).ids) : ∃ t ∈ s.sessions, t.id = id := by
  obtain ⟨t, ht, rfl⟩ := List.mem_map.mp h
  refine ⟨t, ?_, rfl⟩
  split at ht
  · exact (List.mem_filter.mp (List.mem_filter.mp (mem_limitTo ht)).1).1
  · exact (List.mem_filter.mp ((List.mem_insertionSort _).mp (mem_limitTo ht))).1

theorem passInv_select (h : PassInv s (.loaded p) p) : PassInv s (.selected (select s p)) (select s p) where
  now_le := h.now_le
  endedDrawn := h.endedDrawn
  ended := h.ended
  known := h.known
  current := fun r hr _ => h.current r hr trivial
  late := by simp
  drawn := by
    intro id hid
    rcases List.mem_append.mp hid with hid | hid
    · exact mem_select hid
    · exact h.drawn id (List.mem_append_right _ hid)
  unstamped := fun _ => h.unstamped (by simp)
  stamps := h.stamps

theorem passInv_write (h : PassInv s (.selected p) p) : PassInv s (.written p) p where
  now_le := h.now_le
  endedDrawn := h.endedDrawn
  ended := h.ended
  known := h.known
  current := h.current
  late := by simp
  drawn := h.drawn
  unstamped := fun _ => h.unstamped (by simp)
  stamps := h.stamps

theorem passInv_stamp (hinv : Inv cfg s) (h : PassInv s (.written p) p) (hpolicy : p.policy = []) :
    PassInv s (.stamped (stamp s p)) (stamp s p) where
  now_le := h.now_le
  endedDrawn := h.endedDrawn
  ended := h.ended
  known := h.known
  current := fun r hr _ => h.current r hr (Or.inl hpolicy)
  late := by simp
  drawn := by
    intro id hid
    rcases List.mem_append.mp hid with hid | hid
    · exact h.drawn id (List.mem_append_left _ hid)
    · obtain ⟨t, ht, rfl⟩ := List.mem_map.mp hid
      exact ⟨t, (List.mem_filter.mp ht).1, rfl⟩
  unstamped := fun hne => absurd rfl hne
  stamps := by
    intro t ht hstamp
    obtain ⟨t', ht', hid⟩ := List.mem_map.mp hstamp
    obtain ⟨hmem, hcounts⟩ := List.mem_filter.mp ht'
    rw [session_unique hinv hmem ht hid] at hcounts
    simp only [Bool.and_eq_true, decide_eq_true_eq] at hcounts
    exact ⟨hcounts.1.2, hcounts.2, hpolicy⟩

end Moves

/-! ## Rules and sessions change -/

section Tables

variable {cfg : Config Score} {s s' : State Score} {i : Nat} {ph : Phase}

theorem setStatus_ids (rules : List Rule) (id : Nat) (status : RuleStatus) :
    (setStatus rules id status).map Rule.id = rules.map Rule.id := by
  rw [setStatus, List.map_map]
  apply List.map_congr_left
  intro r _
  dsimp only [Function.comp_apply]
  split <;> rfl

/-- A decision that changes whether the rule is approved leaves its sessions to be marked. -/
theorem inv_status (hinv : Inv cfg s) (hi : s.processes[i]? = some .idle) {id : Nat} {status : RuleStatus}
    (hph : ph = .decided id ∨ ph = .idle ∧ status ≠ .approved ∧ ∀ r ∈ s.rules, r.id = id → r.status ≠ .approved) :
    Inv cfg (setPhase { s with rules := setStatus s.rules id status } i ph) := by
  have hquiet : ph.holds = false ∧ ph.pass = none ∧ ∀ now limit, ph ≠ .entered now limit ∧ ph ≠ .locked now limit := by
    rcases hph with rfl | ⟨rfl, -⟩ <;> simp [Phase.holds, Phase.pass]
  have hframe : Frame cfg s (setPhase { s with rules := setStatus s.rules id status } i ph) := by
    refine ⟨Nat.le_refl _, ?_, ?_, fun t ht => Or.inl ht, fun t ht => ht,
      fun other h => deciding_set hi (by simp) h, ?_⟩
    · intro r' hr'
      obtain ⟨r, hr, rfl⟩ := List.mem_map.mp hr'
      refine Or.inl ⟨r, hr, ?_⟩
      split
      · rename_i hid
        refine ⟨rfl, ?_⟩
        rcases hph with rfl | ⟨-, hstatus, hold⟩
        · right
          rw [show ({ r with status := status } : Rule).id = r.id from rfl, hid]
          exact mem_set_self hi _
        · exact Or.inl ⟨fun ha => absurd ha hstatus, fun ha => absurd ha (hold r hr hid)⟩
      · exact ⟨SameRule.refl r, Or.inl Iff.rfl⟩
    · intro r hr
      refine ⟨_, List.mem_map_of_mem hr, ?_⟩
      split <;> rfl
    · intro r hr r' hsame _ h
      exact willEnd_set hi (Nat.le_refl _) hsame (fun he => he.elim) h
  refine hframe.inv hinv ?_ ?_ hinv.sessionIds
    (@lock_set Score cfg s i .idle ph hinv hi (fun hholds => by simp [hquiet.1] at hholds)) ?_ ?_
  · rw [show (setPhase { s with rules := setStatus s.rules id status } i ph).rules = setStatus s.rules id status from rfl,
      setStatus_ids]
    exact hinv.ruleIds
  · intro r hr
    have hlen : (setStatus s.rules id status).length = s.rules.length := List.length_map _
    rw [show (setPhase { s with rules := setStatus s.rules id status } i ph).rules = setStatus s.rules id status from rfl,
      hlen]
    obtain ⟨r', hr', hsame⟩ : ∃ r' ∈ s.rules, r'.id = r.id := by
      have hmem : r.id ∈ (setStatus s.rules id status).map Rule.id := List.mem_map_of_mem hr
      rw [setStatus_ids] at hmem
      exact List.mem_map.mp hmem
    exact hsame ▸ hinv.drawn r' hr'
  · intro now limit h
    have hold : ∀ c : Phase, c ∈ s.processes.set i ph → c ≠ ph → c ∈ s.processes := fun c hc hne =>
      (List.mem_or_eq_of_mem_set hc).resolve_right hne
    exact hinv.entered now limit (h.imp (fun h => hold _ h (Ne.symm (hquiet.2.2 now limit).1))
      (fun h => hold _ h (Ne.symm (hquiet.2.2 now limit).2)))
  · intro j other p hj hother
    rcases getElem_set_cases hj with ⟨-, rfl⟩ | ⟨-, hj⟩
    · simp [hquiet.2.1] at hother
    · exact hinv.passes j other p hj hother

theorem findRule_some {id : Nat} {r : Rule} (h : findRule s id = some r) : r ∈ s.rules ∧ r.id = id :=
  ⟨List.mem_of_find?_eq_some h, by simpa using List.find?_some h⟩

theorem whyNotDecide_none {user : Items.User} {r : Rule} (h : whyNotDecide cfg user r = none) : r.status = .pending := by
  by_contra hne
  simp [whyNotDecide, hne] at h

theorem inv_decide (hinv : Inv cfg s) {ruleId : Nat} {user : Items.User} {approve : Bool}
    (h : step cfg s (.decide i ruleId user approve) = some s') : Inv cfg s' := by
  simp only [step] at h
  split at h
  · rename_i r hi hr
    split at h
    · rename_i hwhy
      cases h
      obtain ⟨hmem, hid⟩ := findRule_some hr
      apply inv_status hinv hi
      cases approve with
      | true => exact Or.inl rfl
      | false =>
        refine Or.inr ⟨rfl, by simp, fun r' hr' hid' => ?_⟩
        rw [rule_unique hinv hr' hmem (hid'.trans hid.symm), whyNotDecide_none (by simpa using hwhy)]
        simp
    · simp at h
  · simp at h

theorem inv_endRule (hinv : Inv cfg s) {ruleId : Nat} {user : Items.User}
    (h : step cfg s (.endRule i ruleId user) = some s') : Inv cfg s' := by
  simp only [step] at h
  split at h
  · rename_i r hi hr
    split at h
    · cases h
      obtain ⟨hmem, hid⟩ := findRule_some hr
      apply inv_status hinv hi
      by_cases ha : r.status = .approved
      · exact Or.inl (by simp [ha])
      · refine Or.inr ⟨by simp [ha], by simp, fun r' hr' hid' => ?_⟩
        rw [rule_unique hinv hr' hmem (hid'.trans hid.symm)]
        exact ha
    · simp at h
  · simp at h

/-- Where the processes and the time stay, so does what is to come. -/
theorem inv_same (hinv : Inv cfg s) (hprocesses : s'.processes = s.processes) (hclock : s'.clock = s.clock)
    (hframe : Frame cfg s s') (hrules : (s'.rules.map Rule.id).Nodup)
    (hdrawn : ∀ r ∈ s'.rules, r.id ≤ s'.rules.length) (hsessions : (s'.sessions.map Session.id).Nodup) : Inv cfg s' := by
  refine hframe.inv hinv hrules hdrawn hsessions ?_ ?_ ?_
  · rw [hprocesses]
    exact hinv.lock
  · rw [hprocesses, hclock]
    exact hinv.entered
  · rw [hprocesses]
    exact hinv.passes

theorem willEnd_same (hprocesses : s'.processes = s.processes) (hclock : s'.clock = s.clock) {r r' : Rule}
    (hsame : SameRule r r') (h : WillEnd s r) : WillEnd s' r' := by
  obtain ⟨ph, hph, he⟩ := h
  exact ⟨ph, hprocesses ▸ hph, he.mono hsame (Nat.le_of_eq hclock.symm)⟩

theorem inv_request (hinv : Inv cfg s) {rule : Rule} (h : step cfg s (.request rule) = some s') : Inv cfg s' := by
  cases h
  have hfresh : ∀ r ∈ s.rules, r.id ≠ s.rules.length + 1 := fun r hr heq => by
    have := hinv.drawn r hr
    omega
  refine inv_same hinv ?_ ?_ ?_ ?_ ?_ ?_
  · rfl
  · rfl
  · refine ⟨Nat.le_refl _, ?_, fun r hr => ⟨r, List.mem_append_left _ hr, SameRule.refl r⟩, fun t ht => Or.inl ht,
      fun t ht => ht, fun id h => h, fun r _ r' hsame _ h => willEnd_same rfl rfl hsame h⟩
    intro r' hr'
    rcases List.mem_append.mp hr' with hr' | hr'
    · exact Or.inl ⟨r', hr', SameRule.refl r', Or.inl Iff.rfl⟩
    · rw [List.mem_singleton.mp hr']
      exact Or.inr ⟨by simp, hfresh⟩
  · rw [List.map_append, List.map_singleton]
    refine List.Nodup.append hinv.ruleIds (by simp) ?_
    intro id hold hnew
    obtain ⟨r, hr, rfl⟩ := List.mem_map.mp hold
    exact hfresh r hr (List.mem_singleton.mp hnew)
  · intro r hr
    simp only [List.length_append, List.length_singleton]
    rcases List.mem_append.mp hr with hr | hr
    · exact Nat.le_succ_of_le (hinv.drawn r hr)
    · rw [List.mem_singleton.mp hr]
  · exact hinv.sessionIds

theorem inv_complete (hinv : Inv cfg s) {id : Nat} {benchmark : DeviceType} {assetId : Option Nat}
    {results : List Result} {compliance : Score} {weighted : Option Score}
    (h : step cfg s (.complete id benchmark assetId results compliance weighted) = some s') : Inv cfg s' := by
  simp only [step] at h
  split at h
  · simp at h
  · rename_i hany
    cases h
    have hfresh : ∀ t ∈ s.sessions, t.id ≠ id := by simpa using hany
    refine inv_same hinv ?_ ?_ ?_ ?_ ?_ ?_
    · rfl
    · rfl
    · refine ⟨Nat.le_refl _, fun r hr => Or.inl ⟨r, hr, SameRule.refl r, Or.inl Iff.rfl⟩,
        fun r hr => ⟨r, hr, SameRule.refl r⟩, ?_, fun t ht => List.mem_append_left _ ht, fun id h => h,
        fun r _ r' hsame _ h => willEnd_same rfl rfl hsame h⟩
      intro t ht
      rcases List.mem_append.mp ht with ht | ht
      · exact Or.inl ht
      · rw [List.mem_singleton.mp ht]
        refine Or.inr ⟨rfl, ⟨?_, ?_, Or.inl ⟨rfl, rfl, rfl⟩, ?_⟩, hfresh⟩
        · exact (markedAs_eq_zero.mpr (by simp)).symm
        · exact (markedAs_eq_zero.mpr (by simp)).symm
        · simp [Session.due, Session.marked]
    · exact hinv.ruleIds
    · exact hinv.drawn
    · rw [List.map_append, List.map_singleton]
      refine List.Nodup.append hinv.sessionIds (by simp) ?_
      intro k hold hnew
      obtain ⟨t, ht, rfl⟩ := List.mem_map.mp hold
      exact hfresh t ht (List.mem_singleton.mp hnew)

end Tables

/-! ## Sessions are marked -/

section Mark

variable {cfg : Config Score} {s : State Score} {i : Nat} {rule : Rule}

/-- The state after the sessions of a rule are marked. -/
def afterMark (s : State Score) (i : Nat) (rule : Rule) : State Score :=
  setPhase (markSessions s rule.benchmark) i .marked

theorem mem_afterMark {t' : Session Score} (h : t' ∈ (afterMark s i rule).sessions) :
    ∃ t ∈ s.sessions, t'.id = t.id ∧ t'.benchmark = t.benchmark ∧
      (t' = t ∧ t.benchmark ≠ rule.benchmark ∨ t' = { t with checked := false }) := by
  obtain ⟨t, ht, rfl⟩ := List.mem_map.mp h
  refine ⟨t, ht, ?_⟩
  split
  · exact ⟨rfl, rfl, Or.inr rfl⟩
  · rename_i hne
    exact ⟨rfl, rfl, Or.inl ⟨rfl, hne⟩⟩

theorem afterMark_ids : (afterMark s i rule).sessions.map Session.id = s.sessions.map Session.id := by
  rw [show (afterMark s i rule).sessions = s.sessions.map
    (fun t => if t.benchmark = rule.benchmark then { t with checked := false } else t) from rfl, List.map_map]
  apply List.map_congr_left
  intro t _
  dsimp only [Function.comp_apply]
  split <;> rfl

theorem touches_afterMark {ids : List Nat} {benchmark : DeviceType}
    (h : touches (afterMark s i rule) ids benchmark = true) : touches s ids benchmark = true := by
  obtain ⟨t', ht', hp⟩ := List.any_eq_true.mp h
  obtain ⟨t, ht, hid, hbenchmark, -⟩ := mem_afterMark ht'
  refine List.any_eq_true.mpr ⟨t, ht, ?_⟩
  rw [hid, hbenchmark] at hp
  exact hp

theorem scope_afterMark {benchmark : DeviceType} {ph : Phase} (h : Scope (afterMark s i rule) benchmark ph) :
    Scope s benchmark ph := by
  cases ph with
  | loaded p => trivial
  | selected p => exact h.imp_right touches_afterMark
  | written p => exact h.imp_right touches_afterMark
  | stamped p => exact touches_afterMark h
  | _ => exact h

theorem deciding_afterMark (hi : s.processes[i]? = some (.decided rule.id)) {id : Nat} (hid : id ≠ rule.id)
    (h : Deciding s id) : Deciding (afterMark s i rule) id :=
  mem_set_of_ne hi h (fun heq => hid (by simpa using heq)) _

theorem willEnd_afterMark (hi : s.processes[i]? = some (.decided rule.id)) {r : Rule} (h : WillEnd s r) :
    WillEnd (afterMark s i rule) r :=
  willEnd_set hi (Nat.le_refl _) (SameRule.refl r) (fun he => he) h

/-- A rule whose time is over will be ended by the process that has marked its sessions. -/
theorem willEnd_of_ranOut (hi : s.processes[i]? = some (.decided rule.id)) {r : Rule} (h : ranOut r s.clock) :
    WillEnd (afterMark s i rule) r := ⟨.marked, mem_set_self hi _, h⟩

theorem agrees_iff {p : Pass} {r : Rule} : agrees p r = true ↔
    (InPolicy p.policy r.id ↔ r.inForce p.now = true ∧ r.id ∉ p.ended) := by
  have hany : p.policy.any (fun r' => r'.id = r.id) = true ↔ InPolicy p.policy r.id := by
    simp [InPolicy, List.any_eq_true]
  have hread : (r.inForce p.now && !p.ended.contains r.id) = true ↔ r.inForce p.now = true ∧ r.id ∉ p.ended := by simp
  rw [agrees, decide_eq_true_eq, Bool.eq_iff_iff, hany, hread]

/-- A pass that has read the rule as it is now has the right policy, unless the rule is to be ended. -/
theorem passCurrent_of_agrees (hi : s.processes[i]? = some (.decided rule.id)) {p : Pass} {r : Rule}
    (hnow : p.now ≤ s.clock) (h : agrees p r = true) : PassCurrent (afterMark s i rule) p r := by
  have hin := agrees_iff.mp h
  refine Or.inr ⟨fun hp => ⟨(inForce_iff.mp (hin.mp hp).1).1, (hin.mp hp).2⟩, fun ha hended => ?_⟩
  by_cases ho : ranOut r p.now
  · exact Or.inr (willEnd_of_ranOut hi (ranOut_mono ho hnow))
  · exact Or.inl (hin.mpr ⟨inForce_iff.mpr ⟨ha, ho⟩, hended⟩)

/-- The rows that a process has written cannot be marked. -/
theorem not_touches_of_unblocked (hblocked : blocked s rule.benchmark = false) {ph : Phase} (hph : ph ∈ s.processes)
    {ids : List Nat} (hids : ∀ id ∈ ids, id ∈ ph.rows) : touches s ids rule.benchmark = false := by
  rw [touches, List.any_eq_false]
  intro t ht hp
  rw [Bool.and_eq_true, List.contains_iff_mem] at hp
  refine List.any_eq_false.mp hblocked t ht ?_
  rw [Bool.and_eq_true]
  exact ⟨hp.1, List.any_eq_true.mpr ⟨ph, hph, List.contains_iff_mem.mpr (hids t.id hp.2)⟩⟩

/-- Every pass that the mark concerns knows of the change. -/
theorem informed_agrees (hblocked : blocked s rule.benchmark = false) {ph : Phase} (hph : ph ∈ s.processes)
    (hinformed : informed s rule ph = true) {p : Pass} (hpass : ph.pass = some p) (hscope : Scope s rule.benchmark ph) :
    agrees p rule = true := by
  cases ph <;> simp only [Phase.pass, Option.some.injEq, reduceCtorEq] at hpass
  all_goals subst hpass
  case expired => exact hscope.elim
  case loaded => exact hinformed
  case selected p =>
    have hconcerns : (p.policy.isEmpty || touches s p.ids rule.benchmark) = true := by
      simpa [Scope] using hscope
    simpa [informed, hconcerns] using hinformed
  case written p =>
    rcases hscope with hpolicy | htouches
    · simpa [informed, hpolicy] using hinformed
    · rw [not_touches_of_unblocked hblocked hph (fun id hid => List.mem_append_right _ hid)] at htouches
      simp at htouches
  case stamped p =>
    have hrows : ∀ id ∈ p.ids ++ p.stamps, id ∈ (Phase.stamped p).rows := by
      intro id hid
      simp only [Phase.rows, List.mem_append] at hid ⊢
      tauto
    rw [Scope, not_touches_of_unblocked hblocked hph hrows] at hscope
    simp at hscope

theorem passInv_afterMark (hinv : Inv cfg s) (hi : s.processes[i]? = some (.decided rule.id)) (hrule : rule ∈ s.rules)
    (hblocked : blocked s rule.benchmark = false) (hinformed : ∀ ph ∈ s.processes, informed s rule ph = true)
    {ph : Phase} (hph : ph ∈ s.processes) {p : Pass} (hpass : ph.pass = some p) (h : PassInv s ph p) :
    PassInv (afterMark s i rule) ph p where
  now_le := h.now_le
  endedDrawn := h.endedDrawn
  ended := by
    intro r hr hended t' ht' hbenchmark
    obtain ⟨t, ht, hid, htb, ⟨rfl, -⟩ | rfl⟩ := mem_afterMark ht'
    · exact h.ended r hr hended t' ht hbenchmark
    · exact Or.inr rfl
  known := h.known
  current := by
    intro r hr hscope
    by_cases hid : r.id = rule.id
    · rw [rule_unique hinv hr hrule hid] at hscope ⊢
      exact passCurrent_of_agrees hi h.now_le
        (informed_agrees hblocked hph (hinformed ph hph) hpass (scope_afterMark hscope))
    · refine (h.current r hr (scope_afterMark hscope)).imp (deciding_afterMark hi hid) ?_
      exact And.imp_right (fun happroved ha hended => (happroved ha hended).imp_right (willEnd_afterMark hi))
  late := by
    intro hexpired r hr ha hended ho
    by_cases hid : r.id = rule.id
    · exact Or.inr (willEnd_of_ranOut hi (ranOut_mono ho h.now_le))
    · exact (h.late hexpired r hr ha hended ho).imp (deciding_afterMark hi hid) (willEnd_afterMark hi)
  drawn := by
    intro id hid
    obtain ⟨t, ht, rfl⟩ := h.drawn id hid
    have hmem : t.id ∈ (afterMark s i rule).sessions.map Session.id := by
      rw [afterMark_ids]
      exact List.mem_map_of_mem ht
    exact List.mem_map.mp hmem
  unstamped := h.unstamped
  stamps := by
    intro t' ht' hstamp
    obtain ⟨t, ht, hid, htb, ⟨rfl, -⟩ | rfl⟩ := mem_afterMark ht'
    · exact h.stamps t' ht hstamp
    · exact h.stamps t ht hstamp

/-- Marking the sessions of a rule takes nothing for settled that is not. -/
theorem inv_mark (hinv : Inv cfg s) (hi : s.processes[i]? = some (.decided rule.id)) (hrule : rule ∈ s.rules)
    (hblocked : blocked s rule.benchmark = false) (hinformed : ∀ ph ∈ s.processes, informed s rule ph = true) :
    Inv cfg (afterMark s i rule) where
  ruleIds := hinv.ruleIds
  drawn := hinv.drawn
  sessionIds := by
    rw [afterMark_ids]
    exact hinv.sessionIds
  lock := @lock_set Score cfg s i (.decided rule.id) .marked hinv hi (by simp [Phase.holds])
  entered := by
    intro now limit h
    have hold : ∀ c : Phase, c ∈ s.processes.set i .marked → c ≠ .marked → c ∈ s.processes := fun c hc hne =>
      (List.mem_or_eq_of_mem_set hc).resolve_right hne
    exact hinv.entered now limit (h.imp (fun h => hold _ h (by simp)) (fun h => hold _ h (by simp)))
  consistent := by
    intro t' ht'
    obtain ⟨t, ht, -, -, ⟨rfl, -⟩ | rfl⟩ := mem_afterMark ht'
    · exact hinv.consistent t' ht
    · exact (hinv.consistent t ht).checked false
  scored := by
    intro t' ht' hchecked
    obtain ⟨t, ht, -, -, ⟨rfl, hne⟩ | rfl⟩ := mem_afterMark ht'
    · obtain ⟨policy, hmarked, hknown, hcurrent⟩ := hinv.scored t' ht hchecked
      refine ⟨policy, hmarked, hknown, fun r hr hbenchmark => ?_⟩
      have hid : r.id ≠ rule.id := by
        intro heq
        rw [rule_unique hinv hr hrule heq] at hbenchmark
        exact hne hbenchmark.symm
      refine (hcurrent r hr hbenchmark).imp (deciding_afterMark hi hid) ?_
      exact And.imp_right (fun happroved ha => (happroved ha).imp_right (willEnd_afterMark hi))
    · simp at hchecked
  passes := by
    intro j ph p hj hpass
    rcases getElem_set_cases hj with ⟨-, rfl⟩ | ⟨-, hj⟩
    · simp [Phase.pass] at hpass
    · exact passInv_afterMark hinv hi hrule hblocked hinformed (List.mem_iff_getElem?.mpr ⟨j, hj⟩) hpass
        (hinv.passes j ph p hj hpass)

end Mark

/-! ## A pass commits -/

section Commit

variable {cfg : Config Score} {s : State Score} {i : Nat} {ph : Phase} {p : Pass}

theorem pass_rule_same (p : Pass) (r : Rule) : SameRule r (p.rule r) := by
  unfold Pass.rule
  split <;> rfl

theorem pass_rule_approved {r : Rule} (h : (p.rule r).status = .approved) : r.id ∉ p.ended ∧ r.status = .approved := by
  unfold Pass.rule at h
  split at h
  · simp at h
  · rename_i hended
    exact ⟨hended, h⟩

theorem pass_session_id (t : Session Score) : (p.session cfg t).id = t.id ∧ (p.session cfg t).benchmark = t.benchmark := by
  unfold Pass.session
  split
  · exact ⟨(rescore_frame cfg p.policy t).1, (rescore_frame cfg p.policy t).2.1⟩
  · split
    · exact ⟨rfl, rfl⟩
    · split <;> exact ⟨rfl, rfl⟩

theorem known_commit {policy : List Rule} (h : Known s policy) : Known (commit cfg s i p) policy := by
  intro r hr
  obtain ⟨r', hr', hsame⟩ := h r hr
  exact ⟨p.rule r', List.mem_map_of_mem hr', SameRule.trans hsame (pass_rule_same p r')⟩

theorem deciding_commit (hi : s.processes[i]? = some ph) (hpass : ph.pass = some p) {r : Rule} (h : Deciding s r.id) :
    Deciding (commit cfg s i p) (p.rule r).id := by
  rw [SameRule.id (pass_rule_same p r)]
  refine mem_set_of_ne hi h ?_ _
  rintro rfl
  simp [Phase.pass] at hpass

theorem ends_pass {clock : Nat} {r : Rule} (hpass : ph.pass = some p) (h : Ends clock r ph) : r.id ∈ p.ended := by
  cases ph <;> simp only [Phase.pass, Option.some.injEq, reduceCtorEq] at hpass
  all_goals
    subst hpass
    exact h

theorem willEnd_commit (hi : s.processes[i]? = some ph) (hpass : ph.pass = some p) {r : Rule} (hended : r.id ∉ p.ended)
    (h : WillEnd s r) : WillEnd (commit cfg s i p) (p.rule r) := by
  obtain ⟨other, hother, he⟩ := h
  have hne : other ≠ ph := by
    rintro rfl
    exact hended (ends_pass hpass he)
  exact ⟨other, mem_set_of_ne hi hother hne _, he.mono (pass_rule_same p r) (Nat.le_refl _)⟩

/-- The policy of the pass is right once the pass has committed. -/
theorem current_commit (hi : s.processes[i]? = some ph) (hpass : ph.pass = some p) {r : Rule}
    (h : PassCurrent s p r) : Current (commit cfg s i p) p.policy (p.rule r) := by
  have hid := SameRule.id (pass_rule_same p r)
  rcases h with hdeciding | ⟨hin, happroved⟩
  · exact Or.inl (deciding_commit hi hpass hdeciding)
  · refine Or.inr ⟨fun hp => ?_, fun ha => ?_⟩
    · rw [hid] at hp
      rw [Pass.rule, if_neg (hin hp).2]
      exact (hin hp).1
    · obtain ⟨hended, ha⟩ := pass_rule_approved ha
      rw [hid]
      exact (happroved ha hended).imp_right (willEnd_commit hi hpass hended)

/-- A policy that is right for a rule stays so when the pass leaves the rule. -/
theorem current_commit_other (hi : s.processes[i]? = some ph) (hpass : ph.pass = some p) {policy : List Rule} {r : Rule}
    (hended : r.id ∉ p.ended) (h : Current s policy r) : Current (commit cfg s i p) policy (p.rule r) := by
  have hrule : p.rule r = r := if_neg hended
  rcases h with hdeciding | ⟨hin, happroved⟩
  · exact Or.inl (deciding_commit hi hpass hdeciding)
  · rw [hrule]
    refine Or.inr ⟨hin, fun ha => (happroved ha).imp_right (fun h => ?_)⟩
    have hends := @willEnd_commit Score cfg s i ph p hi hpass r hended h
    rw [hrule] at hends
    exact hends

theorem consistent_commit {t : Session Score} (h : Consistent cfg t) : Consistent cfg (p.session cfg t) := by
  unfold Pass.session
  split
  · exact rescore_consistent cfg p.policy h
  · split
    · exact h.checked true
    · split
      · exact h.checked false
      · exact h

/-- After the commit a session that does not wait was marked by a policy that is right. -/
theorem scored_commit (hinv : Inv cfg s) (hi : s.processes[i]? = some ph) (hpass : ph.pass = some p)
    (hscope : ∀ benchmark, touches s (p.ids ++ p.stamps) benchmark = true → Scope s benchmark ph) {t : Session Score}
    (ht : t ∈ s.sessions) (hchecked : (p.session cfg t).checked = true) :
    ∃ policy, MarkedBy cfg policy (p.session cfg t) ∧ Known (commit cfg s i p) policy ∧
      ∀ r ∈ s.rules, r.benchmark = t.benchmark → Current (commit cfg s i p) policy (p.rule r) := by
  have hp := hinv.passes i ph p hi hpass
  have hpolicy : t.id ∈ p.ids ++ p.stamps → ∀ r ∈ s.rules, r.benchmark = t.benchmark →
      Current (commit cfg s i p) p.policy (p.rule r) := by
    intro hid r hr hbenchmark
    have htouches : touches s (p.ids ++ p.stamps) r.benchmark = true :=
      List.any_eq_true.mpr ⟨t, ht, by rw [Bool.and_eq_true, List.contains_iff_mem]; exact ⟨by simp [hbenchmark], hid⟩⟩
    exact current_commit hi hpass (hp.current r hr (hscope _ htouches))
  unfold Pass.session at hchecked ⊢
  split at hchecked
  · rename_i hids
    rw [if_pos hids]
    exact ⟨p.policy, rescore_marked cfg p.policy t, known_commit hp.known, hpolicy (List.mem_append_left _ hids)⟩
  · rename_i hids
    rw [if_neg hids]
    split at hchecked
    · rename_i hstamp
      rw [if_pos hstamp]
      obtain ⟨hoptional, hexcluded, hempty⟩ := hp.stamps t ht hstamp
      refine ⟨p.policy, ?_, known_commit hp.known, hpolicy (List.mem_append_right _ hstamp)⟩
      rw [hempty]
      exact ((hinv.consistent t ht).checked true).unmarked hoptional hexcluded
    · rename_i hstamp
      rw [if_neg hstamp]
      split at hchecked
      · simp at hchecked
      · rename_i hmarks
        rw [if_neg hmarks]
        obtain ⟨policy, hmarked, hknown, hcurrent⟩ := hinv.scored t ht hchecked
        refine ⟨policy, hmarked, known_commit hknown, fun r hr hbenchmark => ?_⟩
        refine current_commit_other hi hpass (fun hended => ?_) (hcurrent r hr hbenchmark)
        -- the sessions of a rule that the pass ends are marked or wait
        rcases hp.ended r hr hended t ht hbenchmark.symm with hm | hwaits
        · exact hmarks hm
        · rw [hchecked] at hwaits
          simp at hwaits

theorem inv_commit (hinv : Inv cfg s) (hi : s.processes[i]? = some ph) (hpass : ph.pass = some p)
    (hscope : ∀ benchmark, touches s (p.ids ++ p.stamps) benchmark = true → Scope s benchmark ph) :
    Inv cfg (commit cfg s i p) where
  ruleIds := by
    have hids : (s.rules.map p.rule).map Rule.id = s.rules.map Rule.id := by
      rw [List.map_map]
      exact List.map_congr_left (fun r _ => SameRule.id (pass_rule_same p r))
    rw [show (commit cfg s i p).rules = s.rules.map p.rule from rfl, hids]
    exact hinv.ruleIds
  drawn := by
    intro r' hr'
    obtain ⟨r, hr, rfl⟩ := List.mem_map.mp hr'
    rw [SameRule.id (pass_rule_same p r), show (commit cfg s i p).rules = s.rules.map p.rule from rfl, List.length_map]
    exact hinv.drawn r hr
  sessionIds := by
    have hids : (s.sessions.map (p.session cfg)).map Session.id = s.sessions.map Session.id := by
      rw [List.map_map]
      exact List.map_congr_left (fun t _ => (pass_session_id t).1)
    rw [show (commit cfg s i p).sessions = s.sessions.map (p.session cfg) from rfl, hids]
    exact hinv.sessionIds
  lock := @lock_set Score cfg s i ph .idle hinv hi (by simp [Phase.holds])
  entered := by
    intro now limit h
    have hold : ∀ c : Phase, c ∈ s.processes.set i .idle → c ≠ .idle → c ∈ s.processes := fun c hc hne =>
      (List.mem_or_eq_of_mem_set hc).resolve_right hne
    exact hinv.entered now limit (h.imp (fun h => hold _ h (by simp)) (fun h => hold _ h (by simp)))
  consistent := by
    intro t' ht'
    obtain ⟨t, ht, rfl⟩ := List.mem_map.mp ht'
    exact consistent_commit (hinv.consistent t ht)
  scored := by
    intro t' ht' hchecked
    obtain ⟨t, ht, rfl⟩ := List.mem_map.mp ht'
    obtain ⟨policy, hmarked, hknown, hcurrent⟩ := scored_commit hinv hi hpass hscope ht hchecked
    refine ⟨policy, hmarked, hknown, fun r' hr' hbenchmark => ?_⟩
    obtain ⟨r, hr, rfl⟩ := List.mem_map.mp hr'
    rw [SameRule.benchmark (pass_rule_same p r), (pass_session_id t).2] at hbenchmark
    exact hcurrent r hr hbenchmark
  passes := by
    -- no other process is in a pass
    intro j other q hj hother
    rcases getElem_set_cases hj with ⟨-, rfl⟩ | ⟨hji, hj⟩
    · simp [Phase.pass] at hother
    · exact absurd (hinv.lock j i other ph hj hi (holds_of_pass hother) (holds_of_pass hpass)) hji

end Commit

/-! ## Every step -/

section Run

variable {cfg : Config Score} {s s' : State Score} {i : Nat}

theorem inv_go (hinv : Inv cfg s) {ph : Phase} (hi : s.processes[i]? = some ph)
    (hunraced : ∀ ruleId, ph = .decided ruleId → (findRule s ruleId).all (fun r => s.processes.all (informed s r)) = true)
    (h : go cfg s i ph = some s') : Inv cfg s' := by
  have hmem : ph ∈ s.processes := List.mem_iff_getElem?.mpr ⟨i, hi⟩
  have hpasses : ∀ p, ph.pass = some p → PassInv s ph p := fun p => hinv.passes i ph p hi
  cases ph with
  | idle => simp [go] at h
  | marked => simp [go] at h
  | decided ruleId =>
    simp only [go] at h
    split at h
    · simp at h
    · rename_i rule hrule
      split at h
      · simp at h
      · rename_i hblocked
        cases h
        obtain ⟨hr, rfl⟩ := findRule_some hrule
        have hinformed := hunraced rule.id rfl
        simp only [hrule, Option.all_some, List.all_eq_true] at hinformed
        exact inv_mark hinv hi hr (by simpa using hblocked) hinformed
  | entered now limit =>
    simp only [go] at h
    split at h
    · simp at h
    · rename_i hfree
      cases h
      refine inv_move hinv hi (by simp) (Nat.le_refl _) (fun r _ _ he => he) (fun _ => Or.inr (by simpa using hfree)) ?_
        (by simp [Phase.pass])
      intro now' limit' heq
      simp only [reduceCtorEq, Phase.locked.injEq, false_or] at heq
      exact heq.1 ▸ hinv.entered now limit (Or.inl hmem)
  | locked now limit =>
    cases h
    refine inv_move hinv hi (by simp) (Nat.le_refl _) (fun r hr ha he => mem_expire_ended hr ha he)
      (fun _ => Or.inl rfl) (by simp) ?_
    intro p hp
    cases hp
    exact passInv_expire hinv (hinv.entered now limit (Or.inr hmem))
  | expired p =>
    cases h
    refine inv_move hinv hi (by simp) (Nat.le_refl _) (fun r _ _ he => he) (fun _ => Or.inl rfl) (by simp) ?_
    intro q hq
    cases hq
    exact passInv_load hinv (hpasses p rfl)
  | loaded p =>
    cases h
    refine inv_move hinv hi (by simp) (Nat.le_refl _) (fun r _ _ he => he) (fun _ => Or.inl rfl) (by simp) ?_
    intro q hq
    cases hq
    exact passInv_select (hpasses p rfl)
  | selected p =>
    cases h
    refine inv_move hinv hi (by simp) (Nat.le_refl _) (fun r _ _ he => he) (fun _ => Or.inl rfl) (by simp) ?_
    intro q hq
    cases hq
    exact passInv_write (hpasses p rfl)
  | written p =>
    simp only [go] at h
    split at h
    · rename_i hempty
      cases h
      refine inv_move hinv hi (by simp) (Nat.le_refl _) (fun r _ _ he => he) (fun _ => Or.inl rfl) (by simp) ?_
      intro q hq
      cases hq
      exact passInv_stamp hinv (hpasses p rfl) (by simpa using hempty)
    · cases h
      refine inv_commit hinv hi rfl (fun benchmark htouches => Or.inr ?_)
      have hnone : p.stamps = [] := (hpasses p rfl).unstamped (by simp)
      rw [hnone, List.append_nil] at htouches
      exact htouches
  | stamped p =>
    cases h
    exact inv_commit hinv hi rfl (fun benchmark htouches => htouches)

theorem inv_enter (hinv : Inv cfg s) {now : Nat} {limit : Option Nat}
    (h : step cfg s (.enter i now limit) = some s') : Inv cfg s' := by
  simp only [step] at h
  split at h
  · rename_i hclock
    split at h
    · rename_i hi
      cases h
      refine inv_move hinv hi (by simp) hclock (fun r _ _ he => he.elim) (by simp [Phase.holds]) ?_ (by simp [Phase.pass])
      intro now' limit' heq
      simp only [reduceCtorEq, Phase.entered.injEq, or_false] at heq
      omega
    · rename_i hi
      cases h
      refine inv_move hinv hi (by simp) hclock (fun r _ _ he => ranOut_mono he hclock) (by simp [Phase.holds]) ?_
        (by simp [Phase.pass])
      intro now' limit' heq
      simp only [reduceCtorEq, Phase.entered.injEq, or_false] at heq
      omega
    · simp at h
  · simp at h

theorem inv_step (hinv : Inv cfg s) {a : Action Score} (hunraced : unraced s a = true)
    (h : step cfg s a = some s') : Inv cfg s' := by
  cases a with
  | request rule => exact inv_request hinv h
  | decide i ruleId user approve => exact inv_decide hinv h
  | endRule i ruleId user => exact inv_endRule hinv h
  | enter i now limit => exact inv_enter hinv h
  | complete id benchmark assetId results compliance weighted => exact inv_complete hinv h
  | go i =>
    simp only [step] at h
    split at h
    · simp at h
    · rename_i ph hi
      refine inv_go hinv hi (fun ruleId hph => ?_) h
      simpa [unraced, hi, hph] using hunraced

theorem inv_begin (processes : Nat) : Inv cfg (begin processes) := by
  have hidle : ∀ (i : Nat) (ph : Phase), (begin processes : State Score).processes[i]? = some ph → ph = .idle := by
    intro i ph hi
    exact List.eq_of_mem_replicate (List.mem_iff_getElem?.mpr ⟨i, hi⟩)
  refine ⟨by simp [begin], by simp [begin], by simp [begin], ?_, ?_, by simp [begin], by simp [begin], ?_⟩
  · intro i j ph ph' hi _ hholds
    rw [hidle i ph hi] at hholds
    simp [Phase.holds] at hholds
  · intro now limit h
    simp [begin, List.mem_replicate] at h
  · intro i ph p hi hpass
    rw [hidle i ph hi] at hpass
    simp [Phase.pass] at hpass

/-- When nothing is to come, a policy that is right decides as the approved rules do. -/
theorem decision_quiet (hinv : Inv cfg s) (hidle : ∀ ph ∈ s.processes, ph = .idle) {policy : List Rule}
    (hknown : Known s policy) {benchmark : DeviceType}
    (hcurrent : ∀ r ∈ s.rules, r.benchmark = benchmark → Current s policy r) (assetId : Option Nat) (result : Result) :
    decision cfg policy benchmark assetId result = decision cfg s.approved benchmark assetId result := by
  have hright : ∀ r ∈ s.rules, r.benchmark = benchmark → (InPolicy policy r.id ↔ r.status = .approved) := by
    intro r hr hb
    rcases hcurrent r hr hb with hdeciding | ⟨hin, happroved⟩
    · exact absurd (hidle _ hdeciding) (by simp)
    · refine ⟨hin, fun ha => (happroved ha).resolve_right ?_⟩
      rintro ⟨ph, hph, he⟩
      rw [hidle ph hph] at he
      exact he
  apply decision_congr cfg
  · intro r hr hb
    obtain ⟨r', hr', hsame⟩ := hknown r hr
    have ha := (hright r' hr' ((SameRule.benchmark hsame).trans hb)).mp ⟨r, hr, (SameRule.id hsame).symm⟩
    exact ⟨r', List.mem_filter.mpr ⟨hr', by simpa using ha⟩, hsame⟩
  · intro r hr hb
    obtain ⟨hmem, ha⟩ := List.mem_filter.mp hr
    obtain ⟨r', hr', hid⟩ := (hright r hmem hb).mpr (by simpa using ha)
    obtain ⟨r'', hr'', hsame⟩ := hknown r' hr'
    have heq : r'' = r := rule_unique hinv hr'' hmem ((SameRule.id hsame).trans hid)
    exact ⟨r', hr', SameRule.symm (heq ▸ hsame)⟩

end Run

def config : Config Nat := ⟨List.map Char.toUpper, List.map Char.toLower, fun _ => [], fun a b => 10000 * a / b, 0⟩

def result (check : Str) (status : Evidence.CheckStatus) : Result :=
  ⟨some check, some (lit "L1"), some (lit "high"), status, none⟩

/-- An audit completes, and a user asks to exclude the check that failed. -/
def auditAndRequest : List (Action Nat) :=
  [.complete 1 .linux (some 7) [result (lit "5.2.7") .fail, result (lit "1.1.1") .pass] 5000 (some 5000),
    .request ⟨0, .linux, some (lit "5.2.7"), none, some (lit "medium"), .excluded, none, none, .pending, 1⟩]

/-- The worker reads the policy, before there is a rule in force. -/
def workerReads : List (Action Nat) := [.enter 0 1 (some 200), .go 0, .go 0, .go 0]

/-- The worker selects the sessions, writes, stamps and commits. -/
def workerWrites : List (Action Nat) := [.go 0, .go 0, .go 0, .go 0]

/-- An administrator approves the rule and marks its sessions. -/
def approval : List (Action Nat) := [.decide 1 1 ⟨2, .admin⟩ true, .go 1]

/-- The sessions are scored after the approval. -/
def approvalScores : List (Action Nat) := [.enter 1 2 none, .go 1, .go 1, .go 1, .go 1, .go 1, .go 1]

end Settled
