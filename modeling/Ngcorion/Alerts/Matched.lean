import Ngcorion.Alerts.Notices

/-!
# Notices match

An alert is announced once, and its end only after that, as long as every alert that counts as
notified was in a message.
-/
namespace NoticesMatch

open Serial Transition AlertNotices

/-! ## What is promised -/

/-- A message about new alerts lists the alert. -/
def Told (deliveries : List NotificationDelivery) (i : Nat) : Prop :=
  ∃ d ∈ deliveries, d.kind = .raised ∧ i ∈ d.alert_ids

instance (deliveries : List NotificationDelivery) (i : Nat) : Decidable (Told deliveries i) :=
  inferInstanceAs (Decidable (∃ d ∈ deliveries, _))

/-- A fingerprint has one open alert. -/
def OneOpen (s : State) : Prop :=
  ∀ a ∈ s.alerts.rows, ∀ b ∈ s.alerts.rows, a.2.isOpen = true → b.2.isOpen = true →
    a.2.fingerprint = b.2.fingerprint → a.1 = b.1

/-- No two messages about new alerts on one channel to one recipient list the same alert. -/
def Once (deliveries : List NotificationDelivery) : Prop :=
  deliveries.Pairwise fun d d' => d.kind = .raised → d'.kind = .raised → d.place = d'.place →
    ∀ i ∈ d.alert_ids, i ∉ d'.alert_ids

/-- An alert in a notice that it recovered was in an earlier message about new alerts. -/
def Answered (deliveries : List NotificationDelivery) : Prop :=
  ∀ n d, deliveries[n]? = some d → d.kind = .resolved → ∀ i ∈ d.alert_ids, Told (deliveries.take n) i

structure Matched (s : State) : Prop where
  one_open : OneOpen s
  once : Once s.deliveries
  answered : Answered s.deliveries

/-! ## When it is kept -/

variable {texts : Texts} {users : List User}

/-- A channel of the rule has somebody or something to send to. -/
def reaches (texts : Texts) (users : List User) (rule : NotificationRule) (alerts : List (Nat × Alert)) : Bool :=
  rule.channels.any fun
    | .email => (recipients texts users rule.recipients alerts).1 ≠ []
    | .sms => (recipients texts users rule.recipients alerts).2 ≠ []
    | .syslog => true
    | .webhook id => (texts.number id).isSome

/-- The new alerts of a rule get a message each place once, and all of them do if a notice can follow. -/
structure Announced (texts : Texts) (users : List User) (s : State) (r : Nat × NotificationRule) : Prop where
  hooks : (r.2.channels.filterMap (hook texts)).Nodup
  single : Channel.syslog ∈ r.2.channels → (s.active (some r.1)).length ≤ 1
  active : r.2.kind = .state → ∀ a ∈ s.waiting (some r.1), a.2.status = .active
  reached : r.2.kind = .state → reaches texts users r.2 (s.active (some r.1)) = true

/-- The open alerts of a rule that count as notified were in a message. -/
def AllTold (s : State) (id : Nat) : Prop :=
  ∀ a ∈ s.alerts.rows, a.2.rule_id = some id → a.2.isOpen = true → a.2.notified_at ≠ none → Told s.deliveries a.1

/-- In a dispatch, the rules that send a message about new alerts announce them all; and a rule that gets its first
channel has told its open alerts that count as notified. -/
def Allowed (texts : Texts) (s : State) : Action → Prop
  | .dispatch users now => ∀ r ∈ s.rules.rows, r.2.sends = true → r.2.collects now = false →
      s.waiting (some r.1) ≠ [] → Announced texts users s r
  | .update id data _ => ∀ r ∈ s.rules.rows, r.1 = id → r.2.kind = .state → r.2.channels = [] → data.channels ≠ [] →
      AllTold s id
  | _ => True

/-! ## Messages -/

section Message

variable {rule : NotificationRule} {kind : MessageKind} {alerts : List (Nat × Alert)} {d : NotificationDelivery}

theorem mem_rowsOf {emails phones : List Text.Str} {c : Channel} (h : d ∈ rowsOf texts kind emails phones alerts c) :
    d.alert_ids = alerts.map Prod.fst ∧ d.kind = kind := by
  cases c with
  | email =>
    obtain ⟨email, -, rfl⟩ := List.mem_map.mp h
    exact ⟨rfl, rfl⟩
  | sms =>
    obtain ⟨phone, -, rfl⟩ := List.mem_map.mp h
    exact ⟨rfl, rfl⟩
  | syslog =>
    obtain ⟨a, -, rfl⟩ := List.mem_map.mp h
    exact ⟨rfl, rfl⟩
  | webhook id =>
    obtain ⟨n, -, rfl⟩ := List.mem_map.mp h
    exact ⟨rfl, rfl⟩

theorem mem_queue_message (h : d ∈ queue_message texts users rule kind alerts) :
    d.alert_ids = alerts.map Prod.fst ∧ d.kind = kind := by
  unfold queue_message at h
  split at h
  · cases h
  · obtain ⟨c, -, hrow⟩ := List.mem_flatMap.mp h
    exact mem_rowsOf hrow

/-- A message that reaches something has a row. -/
theorem reaches_row (h : reaches texts users rule alerts = true) (hne : alerts ≠ []) :
    ∃ d ∈ queue_message texts users rule kind alerts, d.kind = kind ∧ d.alert_ids = alerts.map Prod.fst := by
  have hrow : ∃ d, d ∈ queue_message texts users rule kind alerts := by
    unfold queue_message
    rw [if_neg hne]
    obtain ⟨c, hc, hreach⟩ := List.any_eq_true.mp h
    cases c with
    | email =>
      obtain ⟨email, hemail⟩ := List.exists_mem_of_ne_nil _ (of_decide_eq_true hreach)
      exact ⟨_, List.mem_flatMap.mpr ⟨_, hc, List.mem_map_of_mem hemail⟩⟩
    | sms =>
      obtain ⟨phone, hphone⟩ := List.exists_mem_of_ne_nil _ (of_decide_eq_true hreach)
      exact ⟨_, List.mem_flatMap.mpr ⟨_, hc, List.mem_map_of_mem hphone⟩⟩
    | syslog =>
      obtain ⟨a, ha⟩ := List.exists_mem_of_ne_nil _ hne
      exact ⟨_, List.mem_flatMap.mpr ⟨_, hc, List.mem_map_of_mem ha⟩⟩
    | webhook id =>
      obtain ⟨n, hn⟩ := Option.isSome_iff_exists.mp hreach
      refine ⟨_, List.mem_flatMap.mpr ⟨_, hc, List.mem_map_of_mem (a := n) ?_⟩⟩
      rw [hn]
      exact List.mem_singleton_self n
  obtain ⟨d, hd⟩ := hrow
  obtain ⟨hids, hkind⟩ := mem_queue_message hd
  exact ⟨d, hd, hkind, hids⟩

/-- The columns `channel` and `webhook_id` of a row. -/
inductive Medium where
  | email | sms | syslog
  | webhook (id : Nat)

def mediumOf : Place → Medium
  | .email _ => .email
  | .sms _ => .sms
  | .syslog => .syslog
  | .webhook id => .webhook id

def medium (texts : Texts) : Channel → Option Medium
  | .email => some .email
  | .sms => some .sms
  | .syslog => some .syslog
  | .webhook id => (texts.number id).map .webhook

theorem medium_rowsOf {emails phones : List Text.Str} {c : Channel} (h : d ∈ rowsOf texts kind emails phones alerts c) :
    medium texts c = some (mediumOf d.place) := by
  cases c with
  | email =>
    obtain ⟨email, -, rfl⟩ := List.mem_map.mp h
    rfl
  | sms =>
    obtain ⟨phone, -, rfl⟩ := List.mem_map.mp h
    rfl
  | syslog =>
    obtain ⟨a, -, rfl⟩ := List.mem_map.mp h
    rfl
  | webhook id =>
    obtain ⟨n, hn, rfl⟩ := List.mem_map.mp h
    exact congrArg (Option.map Medium.webhook) (Option.mem_toList.mp hn)

/-- Two channels of one medium are the same, or they name the same webhook. -/
theorem medium_inj {c c' : Channel} {m : Medium} (h : medium texts c = some m) (h' : medium texts c' = some m) :
    c = c' ∨ ∃ n, hook texts c = some n ∧ hook texts c' = some n := by
  cases m with
  | webhook n =>
    right
    refine ⟨n, ?_, ?_⟩
    · cases c <;> simp_all [medium, hook]
    · cases c' <;> simp_all [medium, hook]
  | _ =>
    left
    cases c <;> cases c' <;> simp_all [medium]

/-- The rows of a message have different places. -/
theorem places_differ (hchannels : rule.channels.Nodup) (hhooks : (rule.channels.filterMap (hook texts)).Nodup)
    (hsingle : Channel.syslog ∈ rule.channels → alerts.length ≤ 1) :
    (queue_message texts users rule kind alerts).Pairwise fun d d' => d.place ≠ d'.place := by
  unfold queue_message
  split
  · exact .nil
  · refine List.pairwise_flatMap.mpr ⟨?_, ?_⟩
    · intro c hc
      cases c with
      | email =>
        refine List.pairwise_map.mpr ((List.nodup_dedup _).imp ?_)
        intro email email' hne heq
        cases heq
        exact hne rfl
      | sms =>
        refine List.pairwise_map.mpr ((List.nodup_dedup _).imp ?_)
        intro phone phone' hne heq
        cases heq
        exact hne rfl
      | syslog =>
        refine List.pairwise_map.mpr ?_
        cases alerts with
        | nil => exact .nil
        | cons a rest =>
          obtain rfl : rest = [] := by simpa using hsingle hc
          exact List.pairwise_singleton _ _
      | webhook id =>
        refine List.pairwise_map.mpr ?_
        cases texts.number id with
        | none => exact .nil
        | some n => exact List.pairwise_singleton _ _
    · refine (hchannels.and (List.pairwise_filterMap.mp hhooks)).imp ?_
      rintro c c' ⟨hne, hhook⟩ d hd d' hd' heq
      obtain hsame | ⟨n, hn, hn'⟩ := medium_inj (medium_rowsOf hd) (heq ▸ medium_rowsOf hd')
      · exact hne hsame
      · exact hhook n hn n hn' rfl

end Message

/-! ## The invariant -/

/-- What holds in every state: an open alert is of a rule that is on; and an alert that counts as notified was in a
message, unless no notice about its end can follow. -/
structure Inv (s : State) : Prop where
  matched : Matched s
  channels : ∀ r ∈ s.rules.rows, r.2.channels.Nodup
  known : ∀ a ∈ s.alerts.rows, ∀ id, a.2.rule_id = some id → id < s.rules.next
  enabled : ∀ a ∈ s.alerts.rows, a.2.isOpen = true → ∀ r ∈ s.rules.rows, a.2.rule_id = some r.1 → r.2.enabled = true
  listed : ∀ d ∈ s.deliveries, ∀ i ∈ d.alert_ids, i < s.alerts.next
  untold : ∀ a ∈ s.alerts.rows, a.2.notified_at = none → ¬ Told s.deliveries a.1
  told : ∀ a ∈ s.alerts.rows, a.2.isOpen = true → a.2.notified_at ≠ none → ∀ r ∈ s.rules.rows, a.2.rule_id = some r.1 →
    r.2.kind = .state → r.2.channels ≠ [] → Told s.deliveries a.1
  pending : ∀ a ∈ s.alerts.rows, a.2.resolved_notice_pending = true → Told s.deliveries a.1

section Inv

variable {s s' : State} {rows ds : List NotificationDelivery} {i : Nat}

theorem Told.append (h : Told ds i) (rows : List NotificationDelivery) : Told (ds ++ rows) i := by
  obtain ⟨d, hd, hkind, hi⟩ := h
  exact ⟨d, List.mem_append_left _ hd, hkind, hi⟩

/-- Messages of another kind announce nothing. -/
theorem told_append (hrows : ∀ d ∈ rows, d.kind ≠ .raised) : Told (ds ++ rows) i ↔ Told ds i := by
  constructor
  · rintro ⟨d, hd, hkind, hi⟩
    cases List.mem_append.mp hd with
    | inl hold => exact ⟨d, hold, hkind, hi⟩
    | inr hnew => exact absurd hkind (hrows d hnew)
  · exact fun h => h.append rows

theorem Answered.append (h : Answered ds) (hrows : ∀ d ∈ rows, d.kind = .resolved → ∀ i ∈ d.alert_ids, Told ds i) :
    Answered (ds ++ rows) := by
  intro n d hd hkind i hi
  rw [List.take_append]
  cases Nat.lt_or_ge n ds.length with
  | inl hlt =>
    rw [List.getElem?_append_left hlt] at hd
    exact (h n d hd hkind i hi).append _
  | inr hge =>
    rw [List.getElem?_append_right hge] at hd
    rw [List.take_of_length_le hge]
    exact (hrows d (List.mem_of_getElem? hd) hkind i hi).append _

/-- An alert that a step changes keeps what makes it its problem's; it is not opened again, and a notice about its
end needs that it was announced. -/
structure Milder (ds : List NotificationDelivery) (i : Nat) (a b : Alert) : Prop where
  rule : b.rule_id = a.rule_id ∨ b.rule_id = none
  fingerprint : b.fingerprint = a.fingerprint
  open_before : b.isOpen = true → a.isOpen = true
  notified : b.notified_at = a.notified_at
  pending : b.resolved_notice_pending = true → a.resolved_notice_pending = true ∨ Told ds i

theorem Milder.refl (a : Alert) : Milder ds i a a := ⟨.inl rfl, rfl, id, rfl, .inl⟩

theorem Inv.modify (h : Inv s) {f : Nat → Alert → Alert} (hf : ∀ a ∈ s.alerts.rows, Milder s.deliveries a.1 a.2 (f a.1 a.2)) :
    Inv { s with alerts := s.alerts.modify f } := by
  have hback {b : Nat × Alert} (hb : b ∈ (s.alerts.modify f).rows) :
      ∃ a, (b.1, a) ∈ s.alerts.rows ∧ Milder s.deliveries b.1 a b.2 := by
    obtain ⟨a, ha, heq⟩ := Table.mem_modify.mp hb
    exact ⟨a, ha, heq ▸ hf (b.1, a) ha⟩
  have hrule {b : Nat × Alert} {a : Alert} (hm : Milder s.deliveries b.1 a b.2) {id : Nat} (hid : b.2.rule_id = some id) :
      a.rule_id = some id := by
    cases hm.rule with
    | inl hsame => exact hsame ▸ hid
    | inr hnone =>
      rw [hnone] at hid
      cases hid
  constructor
  · refine ⟨?_, h.matched.once, h.matched.answered⟩
    intro b hb b' hb' hopen hopen' hfp
    obtain ⟨a, ha, hm⟩ := hback hb
    obtain ⟨a', ha', hm'⟩ := hback hb'
    refine h.matched.one_open (b.1, a) ha (b'.1, a') ha' (hm.open_before hopen) (hm'.open_before hopen') ?_
    rw [← hm.fingerprint, ← hm'.fingerprint]
    exact hfp
  · exact h.channels
  · intro b hb id hid
    obtain ⟨a, ha, hm⟩ := hback hb
    exact h.known (b.1, a) ha id (hrule hm hid)
  · intro b hb hopen r hr hid
    obtain ⟨a, ha, hm⟩ := hback hb
    exact h.enabled (b.1, a) ha (hm.open_before hopen) r hr (hrule hm hid)
  · exact h.listed
  · intro b hb hnone
    obtain ⟨a, ha, hm⟩ := hback hb
    exact h.untold (b.1, a) ha (hm.notified ▸ hnone)
  · intro b hb hopen hnotified r hr hid
    obtain ⟨a, ha, hm⟩ := hback hb
    exact h.told (b.1, a) ha (hm.open_before hopen) (hm.notified ▸ hnotified) r hr (hrule hm hid)
  · intro b hb hpending
    obtain ⟨a, ha, hm⟩ := hback hb
    cases hm.pending hpending with
    | inl hbefore => exact h.pending (b.1, a) ha hbefore
    | inr htold => exact htold

/-- Messages about alerts that are known, of which a notice about an end has its announcement. -/
theorem Inv.append (h : Inv s) (hkinds : ∀ d ∈ rows, d.kind ≠ .raised) (hlisted : ∀ d ∈ rows, ∀ i ∈ d.alert_ids, i < s.alerts.next)
    (hresolved : ∀ d ∈ rows, d.kind = .resolved → ∀ i ∈ d.alert_ids, Told s.deliveries i) :
    Inv { s with deliveries := s.deliveries ++ rows } := by
  constructor
  · refine ⟨h.matched.one_open, ?_, h.matched.answered.append hresolved⟩
    refine List.pairwise_append.mpr ⟨h.matched.once, ?_, ?_⟩
    · exact List.pairwise_iff_forall_sublist.mpr fun {d d'} hsub hkind =>
        absurd hkind (hkinds d (hsub.subset List.mem_cons_self))
    · exact fun d _ d' hd' _ hkind' => absurd hkind' (hkinds d' hd')
  · exact h.channels
  · exact h.known
  · exact h.enabled
  · intro d hd
    cases List.mem_append.mp hd with
    | inl hold => exact h.listed d hold
    | inr hnew => exact hlisted d hnew
  · intro a ha hnone
    rw [told_append hkinds]
    exact h.untold a ha hnone
  · intro a ha hopen hnotified r hr hid hkind hchannels
    exact (h.told a ha hopen hnotified r hr hid hkind hchannels).append rows
  · exact fun a ha hpending => (h.pending a ha hpending).append rows

/-- Rules change: those with open alerts stay on, and one that gets channels has announced its open alerts. -/
theorem Inv.rules (h : Inv s) {f : Nat → NotificationRule → NotificationRule}
    (hkind : ∀ r ∈ s.rules.rows, (f r.1 r.2).kind = r.2.kind)
    (hchannels : ∀ r ∈ s.rules.rows, (f r.1 r.2).channels.Nodup)
    (henabled : ∀ r ∈ s.rules.rows, ∀ a ∈ s.alerts.rows, a.2.isOpen = true → a.2.rule_id = some r.1 →
      (f r.1 r.2).enabled = true)
    (htold : ∀ r ∈ s.rules.rows, r.2.kind = .state → r.2.channels = [] → (f r.1 r.2).channels ≠ [] → AllTold s r.1) :
    Inv { s with rules := s.rules.modify f } := by
  constructor
  · exact ⟨h.matched.one_open, h.matched.once, h.matched.answered⟩
  · intro r hr
    obtain ⟨r', hr', heq⟩ := Table.mem_modify.mp hr
    rw [← heq]
    exact hchannels (r.1, r') hr'
  · exact h.known
  · intro a ha hopen r hr hid
    obtain ⟨r', hr', heq⟩ := Table.mem_modify.mp hr
    rw [← heq]
    exact henabled (r.1, r') hr' a ha hopen hid
  · exact h.listed
  · exact h.untold
  · intro a ha hopen hnotified r hr hid hstate hne
    obtain ⟨r', hr', heq⟩ := Table.mem_modify.mp hr
    rw [← heq] at hstate hne
    rw [hkind (r.1, r') hr'] at hstate
    by_cases hold : r'.channels = []
    · exact htold (r.1, r') hr' hstate hold hne a ha hid hopen hnotified
    · exact h.told a ha hopen hnotified (r.1, r') hr' hid hstate hold
  · exact h.pending

theorem rule_some {id : Option Nat} {rule : NotificationRule} (h : s.rule id = some rule) :
    ∃ i, id = some i ∧ (i, rule) ∈ s.rules.rows := by
  obtain ⟨i, rfl, hfind⟩ := Option.bind_eq_some_iff.mp h
  obtain ⟨r, hr, rfl⟩ := Option.map_eq_some_iff.mp hfind
  have hid := List.find?_some hr
  rw [decide_eq_true_eq] at hid
  exact ⟨i, rfl, hid ▸ List.mem_of_find?_eq_some hr⟩

theorem rule_of_mem {r : Nat × NotificationRule} (h : r ∈ s.rules.rows) : s.rule (some r.1) = some r.2 := by
  cases hrule : s.rule (some r.1) with
  | some rule =>
    obtain ⟨i, hi, hrow⟩ := rule_some hrule
    cases hi
    exact congrArg some (Table.row_unique hrow h)
  | none =>
    have hnone : s.rules.rows.find? (fun r' => r'.1 = r.1) = none := by simpa [State.rule] using hrule
    rw [List.find?_eq_none] at hnone
    exact absurd (decide_eq_true rfl) (hnone r h)

/-! ### Evaluation -/

variable {now id : Nat} {rule : NotificationRule}

/-- A new alert -/
theorem Inv.raise (h : Inv s) (hrule : (id, rule) ∈ s.rules.rows) (hon : rule.enabled = true) (fp : Text.Str) (p : Problem) :
    Inv (raise id rule fp p s) := by
  unfold AlertNotices.raise
  split
  · exact h
  · next hfree =>
    have hother : ∀ a ∈ s.alerts.rows, a.2.isOpen = true → a.2.fingerprint ≠ fp := by
      intro a ha hopen heq
      exact hfree (List.any_eq_true.mpr ⟨a, ha, by simp [hopen, heq]⟩)
    constructor
    · refine ⟨?_, h.matched.once, h.matched.answered⟩
      intro a ha b hb hopen hopen' heq
      cases Table.mem_insert.mp ha with
      | inl hold =>
        cases Table.mem_insert.mp hb with
        | inl hold' => exact h.matched.one_open a hold b hold' hopen hopen' heq
        | inr hnew =>
          rw [hnew] at heq
          exact absurd heq (hother a hold hopen)
      | inr hnew =>
        cases Table.mem_insert.mp hb with
        | inl hold' =>
          rw [hnew] at heq
          exact absurd heq.symm (hother b hold' hopen')
        | inr hnew' => rw [hnew, hnew']
    · exact h.channels
    · intro a ha i hi
      cases Table.mem_insert.mp ha with
      | inl hold => exact h.known a hold i hi
      | inr hnew =>
        rw [hnew] at hi
        cases hi
        exact s.rules.fresh _ hrule
    · intro a ha hopen r hr hi
      cases Table.mem_insert.mp ha with
      | inl hold => exact h.enabled a hold hopen r hr hi
      | inr hnew =>
        rw [hnew] at hi
        have hid : id = r.1 := Option.some.inj hi
        rw [← Table.row_unique hrule (hid ▸ hr : (id, r.2) ∈ s.rules.rows)]
        exact hon
    · exact fun d hd i hi => Nat.lt_succ_of_lt (h.listed d hd i hi)
    · intro a ha hnone
      cases Table.mem_insert.mp ha with
      | inl hold => exact h.untold a hold hnone
      | inr hnew =>
        rintro ⟨d, hd, -, hi⟩
        rw [hnew] at hi
        exact Nat.lt_irrefl _ (h.listed d hd _ hi)
    · intro a ha hopen hnotified
      cases Table.mem_insert.mp ha with
      | inl hold => exact h.told a hold hopen hnotified
      | inr hnew =>
        rw [hnew] at hnotified
        exact absurd rfl hnotified
    · intro a ha hpending
      cases Table.mem_insert.mp ha with
      | inl hold => exact h.pending a hold hpending
      | inr hnew =>
        rw [hnew] at hpending
        cases hpending

/-- What the engine remembers of held problems is in no table. -/
theorem Inv.same (h : Inv s) (hrules : s'.rules = s.rules) (halerts : s'.alerts = s.alerts)
    (hdeliveries : s'.deliveries = s.deliveries) : Inv s' := by
  obtain ⟨rules, alerts, deliveries, held⟩ := s
  obtain ⟨rules', alerts', deliveries', held'⟩ := s'
  cases hrules
  cases halerts
  cases hdeliveries
  exact ⟨⟨h.matched.one_open, h.matched.once, h.matched.answered⟩, h.channels, h.known, h.enabled, h.listed, h.untold,
    h.told, h.pending⟩

theorem meet_rules (e : Text.Str × Problem) : (meet now id rule s e).rules = s.rules := by
  have hraise (s : State) (fp : Text.Str) (p : Problem) : (AlertNotices.raise id rule fp p s).rules = s.rules := by
    unfold AlertNotices.raise
    split <;> rfl
  unfold meet
  split
  · rfl
  · split
    · rfl
    · split
      · exact hraise s _ _
      · split
        · dsimp only
          split
          · rfl
          · exact hraise _ _ _
        · split
          · rfl
          · exact hraise s _ _

theorem Inv.meet (h : Inv s) (hrule : (id, rule) ∈ s.rules.rows) (hon : rule.enabled = true) (e : Text.Str × Problem) :
    Inv (meet now id rule s e) := by
  unfold AlertNotices.meet
  split
  · refine h.modify fun a _ => ?_
    split
    · exact ⟨.inl rfl, rfl, fun hopen => hopen, rfl, .inl⟩
    · exact .refl a.2
  · split
    · exact h
    · split
      · exact h.raise hrule hon _ _
      · split
        · dsimp only
          split
          · exact h.same rfl rfl rfl
          · have hheld : Inv { s with held_since := Dict.set s.held_since e.1 now } := h.same rfl rfl rfl
            exact hheld.raise hrule hon _ _
        · split
          · exact h
          · exact h.raise hrule hon _ _

/-- An evaluation of a rule that is on -/
theorem Inv.apply (h : Inv s) (hrule : (id, rule) ∈ s.rules.rows) (hon : rule.enabled = true) (problems : List Problem) :
    Inv (apply now id rule problems s) := by
  have hfold (es : List (Text.Str × Problem)) (s : State) (h : Inv s) (hrule : (id, rule) ∈ s.rules.rows) :
      Inv (es.foldl (AlertNotices.meet now id rule) s) ∧ (id, rule) ∈ (es.foldl (AlertNotices.meet now id rule) s).rules.rows := by
    induction es generalizing s with
    | nil => exact ⟨h, hrule⟩
    | cons e es ih => exact ih _ (h.meet hrule hon e) (by rw [meet_rules]; exact hrule)
  obtain ⟨hinv, hrule'⟩ := hfold (seen id problems) s h hrule
  unfold AlertNotices.apply
  dsimp only
  split
  · exact hinv.same rfl rfl rfl
  · next hstate =>
    refine Inv.same (hinv.modify (f := fun _ a => if a.rule_id = some id ∧ a.isOpen ∧
      a.fingerprint ∉ Dict.keys (seen id problems) then recover rule a else a) fun a ha => ?_) rfl rfl rfl
    split
    · next hgone =>
      refine ⟨.inl rfl, rfl, fun hopen => ?_, rfl, fun hpending => ?_⟩
      · cases hopen
      · unfold recover at hpending
        rw [Bool.or_eq_true, Bool.and_eq_true, Bool.and_eq_true, decide_eq_true_eq] at hpending
        refine hpending.imp_right ?_
        rintro ⟨⟨-, hnotified⟩, hchannels⟩
        refine hinv.told a ha hgone.2.1 ?_ (id, rule) hrule' hgone.1 hstate hchannels
        exact Option.isSome_iff_ne_none.mp hnotified
    · exact .refl a.2

/-! ### Dispatch -/

variable {a : Nat × Alert} {key : Option Nat}

theorem mem_waiting : a ∈ s.waiting key ↔ a ∈ s.alerts.rows ∧ a.2.notified_at = none ∧ a.2.isOpen = true ∧ a.2.rule_id = key := by
  unfold State.waiting waiting
  rw [List.mem_filter, Bool.and_eq_true, Bool.and_eq_true, decide_eq_true_eq, Option.isNone_iff_eq_none, and_assoc]

theorem mem_active : a ∈ s.active key ↔ a ∈ s.waiting key ∧ a.2.status = .active := by
  unfold State.active
  rw [List.mem_insertionSort, List.mem_filter, decide_eq_true_eq]

/-- The messages about new alerts of one rule -/
theorem mem_announce {d : NotificationDelivery} (h : d ∈ s.announce texts users now key) : d.kind = .raised ∧
    d.alert_ids = (s.active key).map Prod.fst ∧ s.defers now key = false ∧
    ∃ r ∈ s.rules.rows, key = some r.1 ∧ r.2.sends = true ∧ r.2.collects now = false := by
  unfold State.announce at h
  split at h
  · next rule hrule =>
    split at h
    · next hsends =>
      rw [Bool.and_eq_true, Bool.not_eq_true'] at hsends
      obtain ⟨hids, hkind⟩ := mem_queue_message h
      obtain ⟨i, hi, hrow⟩ := rule_some hrule
      refine ⟨hkind, hids, ?_, (i, rule), hrow, hi, hsends⟩
      unfold State.defers
      rw [hrule, Option.any_some, hsends.2, Bool.and_false]
    · cases h
  · cases h

/-- No alert is listed twice at one place by the messages about new alerts. -/
theorem once_announce (h : Inv s) (hok : Allowed texts s (.dispatch users now)) (hmem : ∃ a, a ∈ s.waiting key) :
    Once (s.announce texts users now key) := by
  unfold State.announce
  split
  · next rule hrule =>
    obtain ⟨i, rfl, hrow⟩ := rule_some hrule
    split
    · next hsends =>
      rw [Bool.and_eq_true, Bool.not_eq_true'] at hsends
      obtain ⟨a, ha⟩ := hmem
      have hannounced := hok (i, rule) hrow hsends.1 hsends.2 (List.ne_nil_of_mem ha)
      refine (places_differ (h.channels _ hrow) hannounced.hooks hannounced.single).imp ?_
      exact fun hne _ _ hplace => absurd hplace hne
    · exact .nil
  · exact .nil

/-- The messages of the first loop -/
def news (texts : Texts) (users : List User) (now : Nat) (s : State) : List NotificationDelivery :=
  ((s.alerts.rows.filter fun a => waiting a.2).map fun a => a.2.rule_id).dedup.flatMap (s.announce texts users now)

/-- What is new in these messages: alerts that were not notified, and will be. -/
theorem mem_news {d : NotificationDelivery} (h : d ∈ news texts users now s) : d.kind = .raised ∧
    ∀ i ∈ d.alert_ids, ∃ a, (i, a) ∈ s.alerts.rows ∧ waiting a = true ∧ s.defers now a.rule_id = false := by
  obtain ⟨key, -, hd⟩ := List.mem_flatMap.mp h
  obtain ⟨hkind, hids, hnow, -⟩ := mem_announce hd
  refine ⟨hkind, fun i hi => ?_⟩
  rw [hids] at hi
  obtain ⟨a, ha, rfl⟩ := List.mem_map.mp hi
  obtain ⟨hrow, hnone, hopen, hkey⟩ := mem_waiting.mp (mem_active.mp ha).1
  refine ⟨a.2, hrow, ?_, by rw [hkey]; exact hnow⟩
  unfold waiting
  rw [hnone, hopen]
  rfl

theorem once_news (h : Inv s) (hok : Allowed texts s (.dispatch users now)) : Once (news texts users now s) := by
  refine List.pairwise_flatMap.mpr ⟨?_, ?_⟩
  · intro key hkey
    obtain ⟨a, ha, rfl⟩ := List.mem_map.mp (List.mem_dedup.mp hkey)
    obtain ⟨hrow, hwaiting⟩ := List.mem_filter.mp ha
    refine once_announce h hok ⟨a, ?_⟩
    unfold State.waiting
    rw [List.mem_filter, hwaiting]
    exact ⟨hrow, by simp⟩
  · refine (List.nodup_dedup _).imp ?_
    intro key key' hne d hd d' hd' _ _ _ i hi hi'
    obtain ⟨-, hids, -⟩ := mem_announce hd
    obtain ⟨-, hids', -⟩ := mem_announce hd'
    rw [hids] at hi
    rw [hids'] at hi'
    obtain ⟨a, ha, rfl⟩ := List.mem_map.mp hi
    obtain ⟨b, hb, hsame⟩ := List.mem_map.mp hi'
    obtain ⟨hrow, -, -, hkey⟩ := mem_waiting.mp (mem_active.mp ha).1
    obtain ⟨hrow', -, -, hkey'⟩ := mem_waiting.mp (mem_active.mp hb).1
    have heq : b.2 = a.2 := Table.row_unique (hsame ▸ hrow') hrow
    exact hne (hkey.symm.trans ((congrArg Alert.rule_id heq).symm.trans hkey'))

/-- What the first loop does with an alert: it marks it as notified, or leaves it. -/
theorem mem_announceNew {b : Nat × Alert} (hb : b ∈ (announceNew texts users now s).alerts.rows) :
    ∃ a, (b.1, a) ∈ s.alerts.rows ∧
      (waiting a = true ∧ s.defers now a.rule_id = false ∧
          b.2 = { a with notified_at := some now, last_notified_at := some now } ∨
        ¬(waiting a = true ∧ s.defers now a.rule_id = false) ∧ b.2 = a) := by
  obtain ⟨a, ha, heq⟩ := Table.mem_modify.mp hb
  refine ⟨a, ha, ?_⟩
  split at heq
  · next hmarked =>
    rw [Bool.and_eq_true, Bool.not_eq_true'] at hmarked
    exact .inl ⟨hmarked.1, hmarked.2, heq.symm⟩
  · next hleft =>
    rw [Bool.and_eq_true, Bool.not_eq_true'] at hleft
    exact .inr ⟨hleft, heq.symm⟩

/-- An alert of a rule that sends is in a message when it is marked. -/
theorem told_news (h : Inv s) (hok : Allowed texts s (.dispatch users now)) {i : Nat} {a : Alert}
    (ha : (i, a) ∈ s.alerts.rows) (hwaiting : waiting a = true) (hnow : s.defers now a.rule_id = false)
    {r : Nat × NotificationRule} (hr : r ∈ s.rules.rows) (hid : a.rule_id = some r.1) (hstate : r.2.kind = .state)
    (hchannels : r.2.channels ≠ []) : Told (news texts users now s) i := by
  have hmem : (i, a) ∈ s.waiting (some r.1) := by
    unfold State.waiting
    rw [List.mem_filter, hwaiting]
    exact ⟨ha, by simp [hid]⟩
  have hopen := (mem_waiting.mp hmem).2.2.1
  have hsends : r.2.sends = true := by
    unfold NotificationRule.sends
    rw [h.enabled _ ha hopen r hr hid, Bool.true_and]
    exact decide_eq_true hchannels
  have hcollects : r.2.collects now = false := by
    unfold State.defers at hnow
    rw [hid, rule_of_mem hr, Option.any_some, hsends, Bool.true_and] at hnow
    exact hnow
  have hannounced := hok r hr hsends hcollects (List.ne_nil_of_mem hmem)
  have hactive : (i, a) ∈ s.active (some r.1) := mem_active.mpr ⟨hmem, hannounced.active hstate _ hmem⟩
  obtain ⟨d, hd, hkind, hids⟩ := @reaches_row texts users r.2 .raised _ (hannounced.reached hstate) (List.ne_nil_of_mem hactive)
  refine ⟨d, List.mem_flatMap.mpr ⟨some r.1, ?_, ?_⟩, hkind, ?_⟩
  · rw [List.mem_dedup, ← hid]
    exact List.mem_map.mpr ⟨(i, a), List.mem_filter.mpr ⟨ha, hwaiting⟩, rfl⟩
  · unfold State.announce
    rw [rule_of_mem hr]
    dsimp only
    rw [if_pos (by rw [hsends, hcollects]; rfl)]
    exact hd
  · rw [hids]
    exact List.mem_map_of_mem hactive

theorem Inv.announceNew (h : Inv s) (hok : Allowed texts s (.dispatch users now)) :
    Inv (announceNew texts users now s) := by
  have hrules {r : Nat × NotificationRule} (hr : r ∈ (AlertNotices.announceNew texts users now s).rules.rows) :
      ∃ r', (r.1, r') ∈ s.rules.rows ∧ r.2.kind = r'.kind ∧ r.2.channels = r'.channels ∧ r.2.enabled = r'.enabled := by
    obtain ⟨r', hr', heq⟩ := Table.mem_modify.mp hr
    rw [← heq]
    refine ⟨r', hr', ?_⟩
    split <;> exact ⟨rfl, rfl, rfl⟩
  have hdeliveries : (AlertNotices.announceNew texts users now s).deliveries = s.deliveries ++ news texts users now s := rfl
  constructor
  · refine ⟨?_, ?_, ?_⟩
    · intro b hb b' hb' hopen hopen' hfp
      obtain ⟨a, ha, hcase⟩ := mem_announceNew hb
      obtain ⟨a', ha', hcase'⟩ := mem_announceNew hb'
      have hsame {a b : Alert} (hcase : waiting a = true ∧ s.defers now a.rule_id = false ∧
            b = { a with notified_at := some now, last_notified_at := some now } ∨
          ¬(waiting a = true ∧ s.defers now a.rule_id = false) ∧ b = a) : b.isOpen = a.isOpen ∧ b.fingerprint = a.fingerprint := by
        obtain ⟨-, -, rfl⟩ | ⟨-, rfl⟩ := hcase <;> exact ⟨rfl, rfl⟩
      obtain ⟨hopen_eq, hfp_eq⟩ := hsame hcase
      obtain ⟨hopen_eq', hfp_eq'⟩ := hsame hcase'
      refine h.matched.one_open (b.1, a) ha (b'.1, a') ha' (hopen_eq ▸ hopen) (hopen_eq' ▸ hopen') ?_
      exact hfp_eq.symm.trans (hfp.trans hfp_eq')
    · rw [hdeliveries]
      refine List.pairwise_append.mpr ⟨h.matched.once, once_news h hok, ?_⟩
      intro d hd d' hd' hkind _ _ i hi hi'
      obtain ⟨a, ha, hwaiting, -⟩ := (mem_news hd').2 i hi'
      unfold waiting at hwaiting
      rw [Bool.and_eq_true, Option.isNone_iff_eq_none] at hwaiting
      exact h.untold (i, a) ha hwaiting.1 ⟨d, hd, hkind, hi⟩
    · rw [hdeliveries]
      refine h.matched.answered.append ?_
      intro d hd hkind
      rw [(mem_news hd).1] at hkind
      cases hkind
  · intro r hr
    obtain ⟨r', hr', -, hchannels, -⟩ := hrules hr
    rw [hchannels]
    exact h.channels (r.1, r') hr'
  · intro b hb id hid
    obtain ⟨a, ha, hcase⟩ := mem_announceNew hb
    refine h.known (b.1, a) ha id ?_
    obtain ⟨-, -, heq⟩ | ⟨-, heq⟩ := hcase <;> rw [heq] at hid <;> exact hid
  · intro b hb hopen r hr hid
    obtain ⟨a, ha, hcase⟩ := mem_announceNew hb
    obtain ⟨r', hr', -, -, henabled⟩ := hrules hr
    rw [henabled]
    refine h.enabled (b.1, a) ha ?_ (r.1, r') hr' ?_
    · obtain ⟨-, -, heq⟩ | ⟨-, heq⟩ := hcase <;> rw [heq] at hopen <;> exact hopen
    · obtain ⟨-, -, heq⟩ | ⟨-, heq⟩ := hcase <;> rw [heq] at hid <;> exact hid
  · rw [hdeliveries]
    intro d hd i hi
    cases List.mem_append.mp hd with
    | inl hold => exact h.listed d hold i hi
    | inr hnew =>
      obtain ⟨a, ha, -⟩ := (mem_news hnew).2 i hi
      exact s.alerts.fresh (i, a) ha
  · intro b hb hnone htold
    obtain ⟨a, ha, ⟨-, -, heq⟩ | ⟨hleft, heq⟩⟩ := mem_announceNew hb
    · rw [heq] at hnone
      cases hnone
    · rw [heq] at hnone
      obtain ⟨d, hd, hkind, hi⟩ := htold
      cases List.mem_append.mp hd with
      | inl hold => exact h.untold (b.1, a) ha hnone ⟨d, hold, hkind, hi⟩
      | inr hnew =>
        obtain ⟨a', ha', hmarked⟩ := (mem_news hnew).2 b.1 hi
        rw [Table.row_unique ha' ha] at hmarked
        exact hleft hmarked
  · rw [hdeliveries]
    intro b hb hopen hnotified r hr hid hstate hchannels
    obtain ⟨a, ha, hcase⟩ := mem_announceNew hb
    obtain ⟨r', hr', hkind_eq, hchannels_eq, -⟩ := hrules hr
    rw [hkind_eq] at hstate
    rw [hchannels_eq] at hchannels
    obtain ⟨hwaiting, hnow, heq⟩ | ⟨-, heq⟩ := hcase
    · rw [heq] at hid
      obtain ⟨d, hd, hkind, hi⟩ := told_news h hok ha hwaiting hnow hr' hid hstate hchannels
      exact ⟨d, List.mem_append_right _ hd, hkind, hi⟩
    · rw [heq] at hopen hnotified hid
      exact (h.told (b.1, a) ha hopen hnotified (r.1, r') hr' hid hstate hchannels).append _
  · rw [hdeliveries]
    intro b hb hpending
    obtain ⟨a, ha, hcase⟩ := mem_announceNew hb
    refine (h.pending (b.1, a) ha ?_).append _
    obtain ⟨-, -, heq⟩ | ⟨-, heq⟩ := hcase <;> rw [heq] at hpending <;> exact hpending

theorem Inv.remind (h : Inv s) : Inv (remind texts users now s) := by
  have hrow {d : NotificationDelivery}
      (hd : d ∈ s.rules.rows.flatMap fun r => queue_message texts users r.2 .reminder (s.due now r.1 r.2)) :
      d.kind = .reminder ∧ ∀ i ∈ d.alert_ids, i < s.alerts.next := by
    obtain ⟨r, -, hmessage⟩ := List.mem_flatMap.mp hd
    obtain ⟨hids, hkind⟩ := mem_queue_message hmessage
    refine ⟨hkind, fun i hi => ?_⟩
    rw [hids] at hi
    obtain ⟨a, ha, rfl⟩ := List.mem_map.mp hi
    unfold State.due at ha
    split at ha
    · exact s.alerts.fresh a (List.mem_filter.mp ha).1
    · cases ha
  refine Inv.modify (s := { s with deliveries := _ }) (h.append ?_ (fun d hd => (hrow hd).2) ?_) fun a _ => ?_
  · intro d hd heq
    rw [(hrow hd).1] at heq
    cases heq
  · intro d hd heq
    rw [(hrow hd).1] at heq
    cases heq
  · split
    · exact ⟨.inl rfl, rfl, fun hopen => hopen, rfl, .inl⟩
    · exact .refl a.2

theorem Inv.announceResolved (h : Inv s) : Inv (announceResolved texts users s) := by
  have hrow {d : NotificationDelivery}
      (hd : d ∈ (Grouping.groupBy (fun a : Nat × Alert => a.2.rule_id)
        (fun id alerts => (s.rule id).elim [] fun rule => queue_message texts users rule .resolved alerts)
        (s.alerts.rows.filter fun a => a.2.resolved_notice_pending)).flatten) :
      d.kind = .resolved ∧ ∀ i ∈ d.alert_ids, ∃ a, (i, a) ∈ s.alerts.rows ∧ a.resolved_notice_pending = true := by
    obtain ⟨rows, hrows, hmem⟩ := List.mem_flatten.mp hd
    obtain ⟨key, -, rfl⟩ := List.mem_map.mp hrows
    dsimp only at hmem
    cases hrule : s.rule key with
    | none =>
      rw [hrule] at hmem
      cases hmem
    | some rule =>
      rw [hrule] at hmem
      obtain ⟨hids, hkind⟩ := mem_queue_message hmem
      refine ⟨hkind, fun i hi => ?_⟩
      rw [hids] at hi
      obtain ⟨a, ha, rfl⟩ := List.mem_map.mp hi
      obtain ⟨hpending, hin⟩ := List.mem_filter.mp (List.mem_filter.mp ha).1
      exact ⟨a.2, hpending, hin⟩
  refine Inv.modify (s := { s with deliveries := _ }) (h.append ?_ ?_ ?_) fun a _ => ?_
  · intro d hd heq
    rw [(hrow hd).1] at heq
    cases heq
  · intro d hd i hi
    obtain ⟨a, ha, -⟩ := (hrow hd).2 i hi
    exact s.alerts.fresh (i, a) ha
  · intro d hd _ i hi
    obtain ⟨a, ha, hpending⟩ := (hrow hd).2 i hi
    exact h.pending (i, a) ha hpending
  · refine ⟨.inl rfl, rfl, fun hopen => hopen, rfl, fun hpending => ?_⟩
    cases hpending

theorem Inv.dispatch (h : Inv s) (hok : Allowed texts s (.dispatch users now)) : Inv (dispatch texts users now s) :=
  (h.announceNew hok).remind.announceResolved

/-! ### Actions of users -/

theorem milder_close (ds : List NotificationDelivery) (i : Nat) (a : Alert) : Milder ds i a (close a) := by
  unfold close
  split
  · exact .refl a
  · refine ⟨.inl rfl, rfl, fun hopen => ?_, rfl, fun hpending => ?_⟩
    · cases hopen
    · cases hpending

theorem Inv.closeRule (h : Inv s) : Inv (closeRule id s) := by
  refine h.modify fun a _ => ?_
  split
  · exact milder_close _ _ _
  · exact .refl a.2

/-- A rule whose alerts were closed has no open one. -/
theorem closed_closeRule {a : Nat × Alert} (ha : a ∈ (closeRule id s).alerts.rows) (hid : a.2.rule_id = some id) :
    a.2.isOpen = false := by
  obtain ⟨a', -, heq⟩ := Table.mem_modify.mp ha
  have hclosed : (close a').isOpen = false := by
    unfold close Alert.isOpen
    split
    · next hresolved => simpa using hresolved
    · rfl
  split at heq
  · rw [← heq]
    exact hclosed
  · next hnot =>
    rw [← heq] at hid ⊢
    simpa [hid] using hnot

/-- A change of a rule that keeps the kind of its event -/
theorem Inv.edit {f : NotificationRule → NotificationRule} (h : Inv s) (hkind : ∀ r, (f r).kind = r.kind)
    (hchannels : ∀ r ∈ s.rules.rows, (f r.2).channels.Nodup)
    (htold : ∀ r ∈ s.rules.rows, r.1 = id → r.2.kind = .state → r.2.channels = [] → (f r.2).channels ≠ [] → AllTold s id)
    (hedit : edit id f s = some s') : Inv s' := by
  obtain ⟨rule, hrule, rfl⟩ := Option.map_eq_some_iff.mp hedit
  obtain ⟨i, hi, hrow⟩ := rule_some hrule
  cases hi
  -- the alerts of a rule that is turned off are closed first
  have hbefore : ∃ t, (if rule.enabled = true ∧ (f rule).enabled = false then AlertNotices.closeRule id s else s) = t ∧ Inv t ∧
      t.rules = s.rules ∧ ((∀ a ∈ t.alerts.rows, a.2.rule_id = some id → a.2.isOpen = false) ∨
        t = s ∧ (rule.enabled = true → (f rule).enabled = true)) := by
    split
    · exact ⟨_, rfl, h.closeRule, rfl, .inl fun a ha hid => closed_closeRule ha hid⟩
    · next hstays =>
      refine ⟨s, rfl, h, rfl, .inr ⟨rfl, fun hon => ?_⟩⟩
      simpa [hon] using hstays
  obtain ⟨t, ht, hinv, hrules, hcase⟩ := hbefore
  dsimp only
  rw [ht]
  refine hinv.rules ?_ ?_ ?_ ?_
  · intro r _
    split
    · exact hkind r.2
    · rfl
  · intro r hr
    rw [hrules] at hr
    split
    · exact hchannels r hr
    · exact h.channels r hr
  · intro r hr a ha hopen hid
    rw [hrules] at hr
    split
    · next heq =>
      have hsame : r.2 = rule := Table.row_unique (heq ▸ hr : (id, r.2) ∈ s.rules.rows) hrow
      rw [heq] at hid
      obtain hclosed | ⟨rfl, hstays⟩ := hcase
      · rw [hclosed a ha hid] at hopen
        cases hopen
      · rw [hsame]
        exact hstays (hinv.enabled a ha hopen (id, rule) hrow hid)
    · exact hinv.enabled a ha hopen r (hrules ▸ hr) hid
  · intro r hr hstate hnone hne a ha hid hopen hnotified
    rw [hrules] at hr
    split at hne
    · next heq =>
      rw [heq] at hid
      obtain hclosed | ⟨rfl, -⟩ := hcase
      · rw [hclosed a ha hid] at hopen
        cases hopen
      · exact htold r hr heq hstate hnone hne a ha hid hopen hnotified
    · exact absurd hnone hne

/-- A new rule has no alerts. -/
theorem Inv.create (h : Inv s) {rule : NotificationRule} (hchannels : rule.channels.Nodup) :
    Inv { s with rules := s.rules.insert rule } := by
  have hold {a : Nat × Alert} (ha : a ∈ s.alerts.rows) {r : Nat × NotificationRule} (hr : r ∈ (s.rules.insert rule).rows)
      (hid : a.2.rule_id = some r.1) : r ∈ s.rules.rows := by
    cases Table.mem_insert.mp hr with
    | inl hold => exact hold
    | inr hnew =>
      rw [hnew] at hid
      exact absurd (h.known a ha _ hid) (Nat.lt_irrefl _)
  constructor
  · exact ⟨h.matched.one_open, h.matched.once, h.matched.answered⟩
  · intro r hr
    cases Table.mem_insert.mp hr with
    | inl hold => exact h.channels r hold
    | inr hnew =>
      rw [hnew]
      exact hchannels
  · exact fun a ha id hid => Nat.lt_succ_of_lt (h.known a ha id hid)
  · exact fun a ha hopen r hr hid => h.enabled a ha hopen r (hold ha hr hid) hid
  · exact h.listed
  · exact h.untold
  · exact fun a ha hopen hnotified r hr hid => h.told a ha hopen hnotified r (hold ha hr hid) hid
  · exact h.pending

/-- A rule is taken away. -/
theorem Inv.keep (h : Inv s) (p : Nat → NotificationRule → Bool) : Inv { s with rules := s.rules.keep p } := by
  constructor
  · exact ⟨h.matched.one_open, h.matched.once, h.matched.answered⟩
  · exact fun r hr => h.channels r (Table.mem_keep.mp hr).1
  · exact h.known
  · exact fun a ha hopen r hr hid => h.enabled a ha hopen r (Table.mem_keep.mp hr).1 hid
  · exact h.listed
  · exact h.untold
  · exact fun a ha hopen hnotified r hr hid => h.told a ha hopen hnotified r (Table.mem_keep.mp hr).1 hid
  · exact h.pending

theorem validate_nodup {hooks : List Nat} {data data' : RuleIn} (h : validate texts hooks data = some data') :
    data'.channels.Nodup ∧ (data'.channels = [] ↔ data.channels = []) := by
  obtain ⟨channels, hvalid, rfl⟩ := Option.map_eq_some_iff.mp h
  unfold validChannels at hvalid
  split at hvalid
  · cases hvalid
    exact ⟨List.nodup_dedup _, List.dedup_eq_nil _⟩
  · cases hvalid

theorem inv_step {a : Action} (h : Inv s) (hok : Allowed texts s a) (hstep : step texts s a = some s') : Inv s' := by
  cases a with
  | apply id problems now =>
    obtain ⟨rule, hrule, happly⟩ := Option.bind_eq_some_iff.mp hstep
    obtain ⟨i, hi, hrow⟩ := rule_some hrule
    cases hi
    split at happly
    · next hon =>
      cases happly
      exact h.apply hrow hon problems
    · cases happly
  | dispatch users now =>
    cases hstep
    exact h.dispatch hok
  | acknowledge alert =>
    cases hstep
    refine h.modify fun a _ => ?_
    split
    · unfold acknowledge
      split
      · next hactive =>
        refine ⟨.inl rfl, rfl, fun _ => ?_, rfl, .inl⟩
        unfold Alert.isOpen
        rw [hactive]
        rfl
      · exact .refl a.2
    · exact .refl a.2
  | resolve alert =>
    cases hstep
    refine h.modify fun a _ => ?_
    split
    · exact milder_close _ _ _
    · exact .refl a.2
  | create kind builtin data hooks =>
    obtain ⟨data', hvalid, rfl⟩ := Option.map_eq_some_iff.mp hstep
    exact h.create (validate_nodup hvalid).1
  | update id data hooks =>
    obtain ⟨data', hvalid, hedit⟩ := Option.bind_eq_some_iff.mp hstep
    obtain ⟨hnodup, hnil⟩ := validate_nodup hvalid
    refine h.edit (f := fun rule => { rule with toRuleIn := data' }) (fun _ => rfl) (fun _ _ => hnodup) ?_ hedit
    exact fun r hr heq hstate hnone hne => hok r hr heq hstate hnone (fun hdata => hne (hnil.mpr hdata))
  | enable id enabled =>
    refine h.edit (f := fun rule => { rule with enabled := enabled }) (fun _ => rfl) h.channels ?_ hstep
    exact fun _ _ _ _ hnone hne => absurd hnone hne
  | delete id =>
    obtain ⟨rule, hrule, hdelete⟩ := Option.bind_eq_some_iff.mp hstep
    split at hdelete
    · cases hdelete
    · cases hdelete
      have hclosed : Inv (AlertNotices.closeRule id s) := h.closeRule
      have hkept := hclosed.keep fun i _ => i ≠ id
      refine hkept.modify (f := fun _ a => if a.rule_id = some id then { a with rule_id := none } else a) fun a _ => ?_
      split
      · exact ⟨.inr rfl, rfl, fun hopen => hopen, rfl, .inl⟩
      · exact .refl a.2

end Inv

/-! ## Runs -/

/-- No rules and no alerts -/
def begin : State where
  rules := ⟨[], 1, by simp, by simp⟩
  alerts := ⟨[], 1, by simp, by simp⟩
  deliveries := []
  held_since := []

/-- Whatever the engine sees and users do: as long as the rules that send announce all their alerts, notices match. -/
theorem notices_match (texts : Texts) {s : State} (h : Reach (step texts) (Allowed texts) begin s) : Matched s := by
  have hbegin : Inv begin := by
    constructor
    · refine ⟨?_, .nil, ?_⟩
      · intro a ha
        cases ha
      · intro n d hd
        cases hd
    · intro r hr
      cases hr
    · intro a ha
      cases ha
    · intro a ha
      cases ha
    · intro d hd
      cases hd
    · intro a ha
      cases ha
    · intro a ha
      cases ha
    · intro a ha
      cases ha
  exact (h.invariant hbegin (fun _ _ _ hinv hok hstep => inv_step hinv hok hstep)).matched

instance (s : State) (r : Nat × NotificationRule) : Decidable (Announced texts users s r) :=
  decidable_of_iff ((r.2.channels.filterMap (hook texts)).Nodup ∧
    (Channel.syslog ∈ r.2.channels → (s.active (some r.1)).length ≤ 1) ∧
    (r.2.kind = .state → ∀ a ∈ s.waiting (some r.1), a.2.status = .active) ∧
    (r.2.kind = .state → reaches texts users r.2 (s.active (some r.1)) = true))
    ⟨fun h => ⟨h.1, h.2.1, h.2.2.1, h.2.2.2⟩, fun h => ⟨h.hooks, h.single, h.active, h.reached⟩⟩

instance (s : State) (id : Nat) : Decidable (AllTold s id) := by
  unfold AllTold
  infer_instance

instance (s : State) (a : Action) : Decidable (Allowed texts s a) :=
  match a with
  | .dispatch users now => inferInstanceAs (Decidable (∀ r ∈ s.rules.rows, r.2.sends = true → r.2.collects now = false →
      s.waiting (some r.1) ≠ [] → Announced texts users s r))
  | .update id data _ => inferInstanceAs (Decidable (∀ r ∈ s.rules.rows, r.1 = id → r.2.kind = .state →
      r.2.channels = [] → data.channels ≠ [] → AllTold s id))
  | .apply _ _ _ | .acknowledge _ | .resolve _ | .create _ _ _ _ | .enable _ _ | .delete _ => isTrue trivial

/-- A text stands for itself and for no number. -/
def plain : Texts := ⟨id, fun _ => none⟩

/-- A rule for a condition, with a channel or without. -/
def ruleOn (channels : List Channel) : RuleIn :=
  ⟨true, .warning, none, ⟨[], [], [['a', '@', 'b']], [], false⟩, channels, 0, true, 0⟩

def problem (key : Char) : Problem := ⟨[key], none⟩

/-- An alert is announced and recovers. -/
def comeAndGone : List Action :=
  [.create .state false (ruleOn [.email, .syslog]) [], .apply 1 [problem 'a'] 0, .dispatch [] 0, .apply 1 [] 1, .dispatch [] 1]

theorem notices_match_gone : ∃ s, Reach (step plain) (Allowed plain) begin s ∧
    s.deliveries.map NotificationDelivery.kind = [.raised, .raised, .resolved, .resolved] ∧ Matched s := by
  have hrun : (run (fun s a => if decide (Allowed plain s a) then step plain s a else none) comeAndGone begin).any
      (fun s => s.deliveries.map NotificationDelivery.kind = [.raised, .raised, .resolved, .resolved]) = true := by
    with_unfolding_all decide
  obtain ⟨s, hs, hkinds⟩ := (Option.any_eq_true _ _).mp hrun
  have hreach : Reach (step plain) (Allowed plain) begin s := Reach.run (fun _ _ hok => of_decide_eq_true hok) _ .start hs
  exact ⟨s, hreach, of_decide_eq_true hkinds, notices_match plain hreach⟩

/-- An alert is acknowledged before it is announced, and recovers. -/
def acknowledgedFirst : List Action :=
  [.create .state false (ruleOn [.email]) [], .apply 1 [problem 'a'] 0, .acknowledge 1, .dispatch [] 0, .apply 1 [] 1,
    .dispatch [] 1]

/-- A rule without channels gets one while it has an open alert, which recovers. -/
def channelLater : List Action :=
  [.create .state false (ruleOn []) [], .apply 1 [problem 'a'] 0, .dispatch [] 0, .update 1 (ruleOn [.email]) [],
    .apply 1 [] 1, .dispatch [] 1]

/-- Two alerts of a rule that sends to a syslog server are announced together. -/
def burst : List Action :=
  [.create .state false (ruleOn [.syslog]) [], .apply 1 [problem 'a', problem 'b'] 0, .dispatch [] 0]

/-- The first message is about the end of an alert. -/
theorem not_answered {actions : List Action}
    (h : (run (step plain) actions begin).any (fun s => s.deliveries.head?.any fun d => d.kind = .resolved && d.alert_ids = [1]) = true) :
    ∃ s, run (step plain) actions begin = some s ∧ ¬ Answered s.deliveries := by
  obtain ⟨s, hs, hd⟩ := (Option.any_eq_true _ _).mp h
  obtain ⟨d, hd, hfirst⟩ := (Option.any_eq_true _ _).mp hd
  rw [Bool.and_eq_true, decide_eq_true_eq, decide_eq_true_eq] at hfirst
  refine ⟨s, hs, fun hanswered => ?_⟩
  rw [List.head?_eq_getElem?] at hd
  obtain ⟨d', hd', -⟩ := hanswered 0 d hd hfirst.1 1 (by simp [hfirst.2])
  cases hd'

theorem notices_mismatch :
    (∃ s, run (step plain) acknowledgedFirst begin = some s ∧ ¬ Answered s.deliveries) ∧
      (∃ s, run (step plain) channelLater begin = some s ∧ ¬ Answered s.deliveries) ∧
      ∃ s, run (step plain) burst begin = some s ∧ ¬ Once s.deliveries := by
  refine ⟨not_answered (by with_unfolding_all decide), not_answered (by with_unfolding_all decide), ?_⟩
  have hrun : (run (step plain) burst begin).any
      (fun s => s.deliveries = [⟨[1, 2], .syslog, .raised, [1]⟩, ⟨[1, 2], .syslog, .raised, [2]⟩]) = true := by
        with_unfolding_all decide
  obtain ⟨s, hs, htwo⟩ := (Option.any_eq_true _ _).mp hrun
  refine ⟨s, hs, fun honce => ?_⟩
  rw [of_decide_eq_true htwo] at honce
  have hnone := (List.pairwise_cons.mp honce).1 _ List.mem_cons_self rfl rfl rfl 1
  exact hnone (by decide) (by decide)

end NoticesMatch
