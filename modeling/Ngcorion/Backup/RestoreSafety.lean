import Ngcorion.Backup.RestoreJob

/-!
# Safety of the restore job

Whatever the device answers, the change is applied at most once and only after
every check, it is kept only when the device was reached again and matched the
backup, and the job ends in a final status.
-/
namespace RestoreSafety

open Text Program RestoreJob

variable {σ : Type} {env : Environment σ} {req : Request}

/-- The world after one more call. -/
def record (w : World σ) (env' : σ) (c : Call) : World σ := { w with env := env', calls := w.calls ++ [c] }

@[simp] theorem record_calls (w : World σ) (env' : σ) (c : Call) : (record w env' c).calls = w.calls ++ [c] := rfl
@[simp] theorem record_job (w : World σ) (env' : σ) (c : Call) : (record w env' c).job = w.job := rfl

/-- The world with another job row. -/
def withJob (w : World σ) (f : Job → Job) : World σ := { w with job := f w.job }

@[simp] theorem withJob_calls (w : World σ) (f : Job → Job) : (withJob w f).calls = w.calls := rfl
@[simp] theorem withJob_job (w : World σ) (f : Job → Job) : (withJob w f).job = f w.job := rfl

@[simp] theorem wp_setJob (f : Job → Job) {Q : Unit → World σ → Prop} {E : Error → World σ → Prop} {w : World σ} :
    wp (setJob f) Q E w ↔ Q () (withJob w f) := Iff.rfl

/-- A call may answer anything, or raise. -/
theorem wp_call {α : Type} {f : σ → Except Error α × σ} {note : Option α → Call} {Q : α → World σ → Prop}
    {E : Error → World σ → Prop} {w : World σ} (hQ : ∀ a env', Q a (record w env' (note (some a))))
    (hE : ∀ e env', E e (record w env' (note none))) : wp (call f note) Q E w := by
  unfold wp call
  cases hf : f w.env with
  | mk result env' =>
    cases result with
    | ok a => exact hQ a env'
    | error e => exact hE e env'

/-- A call that neither applies nor keeps a change. -/
def Call.neutral : Call → Bool
  | .apply _ => false
  | .confirm _ => false
  | _ => true

def Neutral (q : List Call) : Prop := ∀ c ∈ q, Call.neutral c = true

theorem Neutral.append {p q : List Call} (hp : Neutral p) (hq : Neutral q) : Neutral (p ++ q) := by
  intro c hc
  rcases List.mem_append.mp hc with hc | hc
  · exact hp c hc
  · exact hq c hc

theorem Neutral.single {c : Call} (h : Call.neutral c = true) : Neutral [c] := by
  intro d hd
  rw [List.mem_singleton.mp hd]
  exact h

theorem Neutral.nil : Neutral [] := by simp [Neutral]

/-- The calls go on from `w` by neutral ones. -/
def Goes (w w' : World σ) : Prop := ∃ q, w'.calls = w.calls ++ q ∧ Neutral q

theorem Goes.refl {w w' : World σ} (h : w'.calls = w.calls) : Goes w w' := ⟨[], by simp [h], Neutral.nil⟩

theorem Goes.step {w w' w'' : World σ} {c : Call} (h : Goes w w') (hc : Call.neutral c = true)
    (hw : w''.calls = w'.calls ++ [c]) : Goes w w'' := by
  obtain ⟨q, hq, hn⟩ := h
  exact ⟨q ++ [c], by rw [hw, hq, List.append_assoc], hn.append (Neutral.single hc)⟩

theorem Goes.trans {w w' w'' : World σ} (h : Goes w w') (h' : Goes w' w'') : Goes w w'' := by
  obtain ⟨p, hp, hnp⟩ := h
  obtain ⟨q, hq, hnq⟩ := h'
  exact ⟨p ++ q, by rw [hq, hp, List.append_assoc], hnp.append hnq⟩

/-! ## The loops -/

/-- The attempts to reach the device again: the last call of a successful one is
an `open` that returned. -/
def Reconnected (w : World σ) (ok : Bool) (w' : World σ) : Prop :=
  Goes w w' ∧ (ok = true → ∃ q, Neutral q ∧ w'.calls = w.calls ++ (q ++ [Call.open_ true]))

theorem Reconnected.opened {w w' : World σ} {e : σ} (h : w' = record w e (.open_ true)) : Reconnected w true w' := by
  subst h
  exact ⟨(Goes.refl rfl).step rfl rfl, fun _ => ⟨[], Neutral.nil, by simp⟩⟩

theorem Reconnected.retry {w w' w'' : World σ} {ok : Bool} (h : Goes w w') (h' : Reconnected w' ok w'') :
    Reconnected w ok w'' := by
  refine ⟨h.trans h'.1, fun hok => ?_⟩
  obtain ⟨p, hp, hn⟩ := h
  obtain ⟨q, hq, hcalls⟩ := h'.2 hok
  exact ⟨p ++ q, hn.append hq, by rw [hcalls, hp]; simp⟩

theorem reconnect_spec (attempts : Nat) (w : World σ) :
    wp (_reconnect env attempts) (Reconnected w) (fun _ _ => False) w := by
  induction attempts generalizing w with
  | zero => exact ⟨Goes.refl rfl, by simp⟩
  | succ attempts ih =>
    simp only [_reconnect, wp_bind, wp_attempt]
    apply wp_call
    · intro a env'
      exact Reconnected.opened rfl
    · intro e env'
      have hgoes : Goes w (record w env' (.open_ false)) := (Goes.refl rfl).step rfl rfl
      have hretry : ∀ w', Goes w w' → wp (_reconnect env attempts) (Reconnected w) (fun _ _ => False) w' := by
        intro w' hw
        exact wp_mono (ih w') (fun ok w'' h => Reconnected.retry hw h) (fun _ _ h => h)
      by_cases hlast : 0 < attempts
      · simp only [hlast, if_true, wp_bind, sleep, wp_update]
        exact hretry _ hgoes
      · simp only [hlast, if_false]
        exact hretry _ hgoes

theorem pollOpen_spec (attempts : Nat) (w : World σ) :
    wp (pollOpen env attempts) (fun _ w' => Goes w w') (fun _ _ => False) w := by
  induction attempts generalizing w with
  | zero => exact Goes.refl rfl
  | succ attempts ih =>
    simp only [pollOpen, wp_bind, wp_attempt]
    apply wp_call
    · intro a env'
      exact (Goes.refl rfl).step rfl rfl
    · intro e env'
      simp only [sleep, wp_bind, wp_update]
      have hgoes : Goes w (record w env' (.open_ false)) := (Goes.refl rfl).step rfl rfl
      exact wp_mono (ih _) (fun _ w' h => hgoes.trans h) (fun _ _ h => h)

/-- Waiting for the device's own timer changes nothing and ends. -/
theorem await_spec (pre_text : Str) (armed : Bool) (minutes applied_at : Nat) (w : World σ) :
    wp (_await_self_revert env req pre_text armed minutes applied_at)
      (fun _ w' => Goes w w' ∧ (w'.job.status = .failed ∨ w'.job.status = .reverted)) (fun _ w' => Goes w w') w := by
  cases armed with
  | false =>
    simp only [_await_self_revert, if_true, wp_bind, event, finish, wp_setJob]
    exact ⟨Goes.refl rfl, by simp⟩
  | true =>
    simp only [_await_self_revert, reduceCtorEq, if_false, wp_bind, status, event, finish, wp_setJob, wp_update]
    refine wp_mono (pollOpen_spec _ _) ?_ (fun _ _ h => h.elim)
    intro found w₁ h₁
    have hw₁ : Goes w w₁ := h₁
    cases found with
    | false =>
      simp only [Bool.false_eq_true, if_false, wp_setJob]
      exact ⟨hw₁, by simp⟩
    | true =>
      simp only [if_true, wp_bind]
      apply wp_call
      · intro live env₂
        have hw₂ := hw₁.step rfl (record_calls w₁ env₂ (.read_live (some live)))
        simp only [wp_bind]
        apply wp_call
        · intro result env₃
          obtain ⟨ok, remaining⟩ := result
          have hw₃ := hw₂.step rfl (record_calls _ env₃ (.configs_match pre_text live (some ok)))
          cases ok with
          | false =>
            simp only [Bool.false_eq_true, if_false, wp_setJob]
            exact ⟨hw₃, by simp⟩
          | true =>
            simp only [if_true, wp_bind, wp_setJob]
            exact ⟨hw₃, by simp⟩
        · intro e env₃
          exact hw₂.step rfl (record_calls _ env₃ _)
      · intro e env₂
        exact hw₁.step rfl (record_calls w₁ env₂ _)

/-! ## After the change was applied -/

/-- A later `open` returned, and the configuration read after it matched. -/
def Matched (text : Str) (q : List Call) : Prop :=
  ∃ a b c live, q = a ++ Call.open_ true :: (b ++ Call.read_live (some live) :: c) ∧ Call.configs_match text live (some true) ∈ c

/-- The calls after `apply`: the change is kept at most once, only when `apply`
returned, and only after a match. -/
def Followed (text : Str) (ok : Bool) (q : List Call) : Prop :=
  Neutral q ∨ ok = true ∧ ∃ p kept rest, q = p ++ Call.confirm kept :: rest ∧ Neutral p ∧ Neutral rest ∧ Matched text p

/-- The job is over: it kept the change if it succeeded. -/
def Ended (w : World σ) : Prop :=
  w.job.status.final = true ∧ (w.job.status = .succeeded → Call.confirm true ∈ w.calls)

theorem ended_of_not_kept {w : World σ} (h : w.job.status = .failed ∨ w.job.status = .reverted) : Ended w := by
  rcases h with h | h
  · exact ⟨by rw [h]; rfl, by simp [h]⟩
  · exact ⟨by rw [h]; rfl, by simp [h]⟩

theorem keep_spec (armed : Bool) (w : World σ) :
    wp (keep env req armed) (fun _ w' => w'.calls = w.calls ++ [Call.confirm true] ∧ w'.job.status = .succeeded)
      (fun _ w' => w'.calls = w.calls ++ [Call.confirm false]) w := by
  simp only [keep, wp_bind, status, wp_setJob]
  apply wp_call
  · intro a env'
    simp [event, finish]
  · intro e env'
    simp

/-- What step 4 does, from the call of `apply` on. -/
def Verifies (text : Str) (w w' : World σ) : Prop := ∃ q, w'.calls = w.calls ++ q ∧ Followed text true q

theorem verifies_of_goes {text : Str} {w w' : World σ} (h : Goes w w') : Verifies text w w' := by
  obtain ⟨q, hq, hn⟩ := h
  exact ⟨q, hq, Or.inl hn⟩

theorem verify_spec (text pre_text : Str) (pre_id : Nat) (armed : Bool) (minutes applied_at : Nat) (w : World σ) :
    wp (verify env req text pre_text pre_id armed minutes applied_at) (fun _ w' => Verifies text w w' ∧ Ended w')
      (fun _ w' => Verifies text w w') w := by
  simp only [verify, wp_bind, status, wp_setJob]
  apply wp_call
  · intro _ env₁
    have hw₁ : Goes w (record w env₁ (.close true)) := (Goes.refl rfl).step rfl rfl
    simp only [wp_bind]
    refine wp_mono (reconnect_spec _ _) ?_ (fun _ _ h => h.elim)
    intro found w₂ h₂
    have hw₂ : Goes w w₂ := hw₁.trans h₂.1
    cases found with
    | false =>
      simp only [Bool.false_eq_true, if_false]
      refine wp_mono (await_spec _ _ _ _ w₂) ?_ ?_
      · rintro _ w' ⟨hgoes, hstatus⟩
        exact ⟨verifies_of_goes (hw₂.trans hgoes), ended_of_not_kept hstatus⟩
      · intro _ w' hgoes
        exact verifies_of_goes (hw₂.trans hgoes)
    | true =>
      obtain ⟨q, hq, hcalls⟩ := h₂.2 rfl
      simp only [if_true, wp_bind, event, wp_setJob]
      apply wp_call
      · intro live env₃
        have hw₃ : Goes w (record w₂ env₃ (.read_live (some live))) := hw₂.step rfl rfl
        simp only [wp_bind]
        apply wp_call
        · intro result env₄
          obtain ⟨ok, remaining⟩ := result
          have hw₄ := hw₃.step rfl (record_calls _ env₄ (.configs_match text live (some ok)))
          cases ok with
          | true =>
            simp only [if_true, wp_bind, wp_setJob]
            have hmatched : Matched text ([Call.close true] ++ q ++ [Call.open_ true, .read_live (some live),
                .configs_match text live (some true)]) :=
              ⟨[Call.close true] ++ q, [], [.configs_match text live (some true)], live, by simp, by simp⟩
            obtain ⟨p, hp, hn⟩ := hw₄
            have hpq : p = [Call.close true] ++ q ++ [Call.open_ true, .read_live (some live),
                .configs_match text live (some true)] := by
              have hall := hp.symm.trans (show _ = w.calls ++ ([Call.close true] ++ q ++ [Call.open_ true,
                .read_live (some live), .configs_match text live (some true)]) by simp [hcalls])
              exact List.append_cancel_left hall
            have hkept : ∀ kept w', w'.calls = (w.calls ++ p) ++ [Call.confirm kept] → Verifies text w w' := by
              intro kept w' hw'
              refine ⟨p ++ [Call.confirm kept], by rw [hw', List.append_assoc], Or.inr ⟨rfl, p, kept, [], rfl, hn, Neutral.nil, ?_⟩⟩
              rw [hpq]
              exact hmatched
            refine wp_mono (keep_spec armed _) ?_ ?_
            · rintro _ w' ⟨hw', hstatus⟩
              exact ⟨hkept true w' (by rw [hw', ← hp]; rfl), by rw [hstatus]; rfl, fun _ => by simp [hw']⟩
            · intro _ w' hw'
              exact hkept false w' (by rw [hw', ← hp]; rfl)
          | false =>
            simp only [Bool.false_eq_true, if_false, wp_bind, wp_setJob]
            cases armed with
            | false =>
              simp only [Bool.false_eq_true, if_false, finish, wp_setJob]
              exact ⟨verifies_of_goes hw₄, ended_of_not_kept (by simp)⟩
            | true =>
              simp only [if_true, wp_bind, wp_setJob]
              apply wp_call
              · intro _ env₅
                simp only [finish, wp_bind, wp_setJob]
                exact ⟨verifies_of_goes (hw₄.step rfl rfl), ended_of_not_kept (by simp)⟩
              · intro e env₅
                exact verifies_of_goes (hw₄.step rfl rfl)
        · intro e env₄
          exact verifies_of_goes (hw₃.step rfl rfl)
      · intro e env₃
        exact verifies_of_goes (hw₂.step rfl rfl)
  · intro e env₁
    exact verifies_of_goes ((Goes.refl rfl).step rfl rfl)

theorem rejected_spec (message : Str) (pre_id : Nat) (armed : Bool) (minutes : Nat) (w : World σ) :
    wp (rejected env req message pre_id armed minutes)
      (fun _ w' => Goes w w' ∧ (w'.job.status = .failed ∨ w'.job.status = .reverted)) (fun _ _ => False) w := by
  cases armed with
  | false =>
    simp only [rejected, Bool.false_eq_true, if_false, wp_bind, event, finish, wp_setJob]
    exact ⟨Goes.refl rfl, by simp⟩
  | true =>
    simp only [rejected, if_true, wp_bind, status, event, finish, wp_setJob, wp_attempt]
    apply wp_call
    · intro _ env'
      simp only [wp_setJob]
      exact ⟨(Goes.refl rfl).step rfl rfl, by simp⟩
    · intro e env'
      simp only [wp_setJob, wp_bind]
      exact ⟨(Goes.refl rfl).step rfl rfl, by simp⟩

/-- What step 3 does: one call of `apply` and what may follow it. -/
def Applies (text : Str) (w w' : World σ) : Prop :=
  ∃ ok q, w'.calls = w.calls ++ Call.apply ok :: q ∧ Followed text ok q

theorem applies_of_verifies {text : Str} {w w₁ w' : World σ} (h₁ : w₁.calls = w.calls ++ [Call.apply true])
    (h : Verifies text w₁ w') : Applies text w w' := by
  obtain ⟨q, hq, hf⟩ := h
  exact ⟨true, q, by rw [hq, h₁]; simp, hf⟩

theorem applies_of_goes {text : Str} {w w₁ w' : World σ} (ok : Bool) (h₁ : w₁.calls = w.calls ++ [Call.apply ok])
    (h : Goes w₁ w') : Applies text w w' := by
  obtain ⟨q, hq, hn⟩ := h
  exact ⟨ok, q, by rw [hq, h₁]; simp, Or.inl hn⟩

theorem applyPlan_spec (plan : Plan) (text pre_text : Str) (pre_id : Nat) (armed : Bool) (minutes : Nat) (w : World σ) :
    wp (applyPlan env req plan text pre_text pre_id armed minutes) (fun _ w' => Applies text w w' ∧ Ended w')
      (fun _ w' => Applies text w w') w := by
  simp only [applyPlan, wp_bind, status, wp_setJob, wp_attempt]
  apply wp_call
  · intro _ env₁
    simp only [wp_bind, event, wp_setJob, wp_read]
    refine wp_mono (verify_spec text pre_text pre_id armed minutes _ _) ?_ ?_
    · rintro _ w' ⟨hv, hended⟩
      exact ⟨applies_of_verifies rfl hv, hended⟩
    · intro _ w' hv
      exact applies_of_verifies rfl hv
  · intro e env₁
    cases e with
    | apply message =>
      refine wp_mono (rejected_spec message pre_id armed minutes _) ?_ (fun _ _ h => h.elim)
      rintro _ w' ⟨hgoes, hstatus⟩
      exact ⟨applies_of_goes false rfl hgoes, ended_of_not_kept hstatus⟩
    | other type message =>
      simp only [wp_raise]
      exact applies_of_goes false rfl (Goes.refl rfl)

/-! ## Before the change is applied -/

/-- Everything the job checked and saved before it applies the change. -/
structure Allowed (req : Request) (p : List Call) : Prop where
  reviewed : ∃ live, Call.read_live (some live) ∈ p ∧ Call.fingerprint live (some req.expected_fingerprint) ∈ p
  lockouts : ∃ plan, Call.plan (some plan) ∈ p ∧ (plan.lockouts = [] ∨ req.acknowledged_lockout = true)
  revert : Call.auto_revert_available (some true) ∈ p ∨
    Call.auto_revert_available (some false) ∈ p ∧ req.allow_without_auto_revert = true
  saved : ∃ text, Call.snapshot (some text) ∈ p ∧ Call.commit_backup text ∈ p

/-- The calls of a job: none that changes the device, or one `apply` after all
checks and what may follow it. -/
def Course (req : Request) (text : Str) (t : List Call) : Prop :=
  Neutral t ∨ ∃ p ok q, t = p ++ Call.apply ok :: q ∧ Neutral p ∧ Allowed req p ∧ Followed text ok q

/-- A job that succeeded kept the change, unless its plan was empty. -/
def Kept (w : World σ) : Prop :=
  w.job.status = .succeeded → (∃ plan, Call.plan (some plan) ∈ w.calls ∧ plan.is_empty = false) → Call.confirm true ∈ w.calls

theorem kept_of_failed {w : World σ} (h : w.job.status = .failed) : Kept w := by simp [Kept, h]

def OverSafely (req : Request) (text : Str) (w : World σ) : Prop :=
  Course req text w.calls ∧ w.job.status.final = true ∧ Kept w

theorem overSafely_failed {text : Str} {w : World σ} (hn : Neutral w.calls) (h : w.job.status = .failed) :
    OverSafely req text w := ⟨Or.inl hn, by rw [h]; rfl, kept_of_failed h⟩

theorem course_of_applies {text : Str} {w w' : World σ} (hn : Neutral w.calls) (ha : Allowed req w.calls)
    (h : Applies text w w') : Course req text w'.calls := by
  obtain ⟨ok, q, hq, hf⟩ := h
  exact Or.inr ⟨w.calls, ok, q, hq, hn, ha, hf⟩

theorem Neutral.snoc {p : List Call} {c : Call} (hp : Neutral p) (hc : Call.neutral c = true) : Neutral (p ++ [c]) :=
  hp.append (Neutral.single hc)

theorem backUp_spec (plan : Plan) (text : Str) (armed : Bool) (minutes : Nat) (w : World σ) (hn : Neutral w.calls)
    (hreviewed : ∃ live, Call.read_live (some live) ∈ w.calls ∧ Call.fingerprint live (some req.expected_fingerprint) ∈ w.calls)
    (hlockouts : ∃ plan, Call.plan (some plan) ∈ w.calls ∧ (plan.lockouts = [] ∨ req.acknowledged_lockout = true))
    (hrevert : Call.auto_revert_available (some true) ∈ w.calls ∨
      Call.auto_revert_available (some false) ∈ w.calls ∧ req.allow_without_auto_revert = true) :
    wp (backUp env req plan text armed minutes) (fun _ w' => OverSafely req text w')
      (fun _ w' => Course req text w'.calls) w := by
  simp only [backUp, wp_bind, status, wp_setJob]
  apply wp_call
  · intro pre_text env₁
    simp only [wp_bind, wp_read, wp_update, event, wp_setJob]
    have hcalls : w.calls ++ [Call.snapshot (some pre_text)] ++ [Call.commit_backup pre_text] =
        w.calls ++ [Call.snapshot (some pre_text), .commit_backup pre_text] := by simp
    have hneutral : Neutral (w.calls ++ [Call.snapshot (some pre_text)] ++ [Call.commit_backup pre_text]) :=
      (hn.snoc rfl).snoc rfl
    have hallowed : Allowed req (w.calls ++ [Call.snapshot (some pre_text)] ++ [Call.commit_backup pre_text]) := by
      obtain ⟨live, hlive, hprint⟩ := hreviewed
      obtain ⟨plan, hplan, hlock⟩ := hlockouts
      refine ⟨⟨live, by simp [hlive], by simp [hprint]⟩, ⟨plan, by simp [hplan], hlock⟩, ?_, ⟨pre_text, by simp, by simp⟩⟩
      rcases hrevert with h | ⟨h, ha⟩
      · exact Or.inl (by simp [h])
      · exact Or.inr ⟨by simp [h], ha⟩
    refine wp_mono (applyPlan_spec plan text pre_text _ armed minutes _) ?_ ?_
    · rintro _ w' ⟨ha, hended⟩
      exact ⟨course_of_applies hneutral hallowed ha, hended.1, fun hs _ => hended.2 hs⟩
    · intro _ w' ha
      exact course_of_applies hneutral hallowed ha
  · intro e env₁
    exact Or.inl (hn.snoc rfl)

theorem gate_spec (plan : Plan) (text : Str) (w : World σ) (hn : Neutral w.calls) (hplan : Call.plan (some plan) ∈ w.calls)
    (hreviewed : ∃ live, Call.read_live (some live) ∈ w.calls ∧ Call.fingerprint live (some req.expected_fingerprint) ∈ w.calls) :
    wp (gate env req plan text) (fun _ w' => OverSafely req text w') (fun _ w' => Course req text w'.calls) w := by
  simp only [gate, wp_bind, wp_setJob]
  by_cases hlock : plan.lockouts ≠ [] ∧ req.acknowledged_lockout = false
  · rw [if_pos hlock]
    simp only [wp_bind, event, finish, wp_setJob]
    exact overSafely_failed hn rfl
  rw [if_neg hlock]
  have hlockouts : plan.lockouts = [] ∨ req.acknowledged_lockout = true := by
    by_cases h : plan.lockouts = []
    · exact Or.inl h
    · exact Or.inr (by simpa [h] using hlock)
  simp only [wp_bind]
  apply wp_call
  · intro result env₁
    obtain ⟨available, reason⟩ := result
    simp only [wp_bind, wp_setJob]
    have hn₁ : Neutral (w.calls ++ [Call.auto_revert_available (some available)]) := hn.snoc rfl
    by_cases hwaived : available = false ∧ req.allow_without_auto_revert = false
    · rw [if_pos hwaived]
      simp only [wp_bind, event, finish, wp_setJob]
      exact overSafely_failed hn₁ rfl
    · rw [if_neg hwaived]
      simp only [wp_bind, wp_read]
      obtain ⟨live, hlive, hprint⟩ := hreviewed
      apply backUp_spec
      · exact hn₁
      · exact ⟨live, by simp [hlive], by simp [hprint]⟩
      · exact ⟨plan, by simp [hplan], hlockouts⟩
      · cases available with
        | true => exact Or.inl (by simp)
        | false => exact Or.inr ⟨by simp, by simpa using hwaived⟩
  · intro e env₁
    exact Or.inl (hn.snoc rfl)

theorem connect_spec (text : Str) (w : World σ) (hw : w.calls = []) :
    wp (connect env req text) (fun _ w' => OverSafely req text w') (fun _ w' => Course req text w'.calls) w := by
  simp only [connect, wp_bind, status, wp_setJob]
  apply wp_call
  · intro _ env₁
    simp only [wp_bind]
    apply wp_call
    · intro _ env₂
      simp only [wp_bind, event, wp_setJob]
      apply wp_call
      · intro live env₃
        simp only [wp_bind]
        apply wp_call
        · intro print env₄
          have hn₄ : Neutral [.make_driver true, .open_ true, .read_live (some live), .fingerprint live (some print)] := by
            simp [Neutral, Call.neutral]
          by_cases hprint : print ≠ req.expected_fingerprint
          · rw [if_pos hprint]
            simp only [wp_bind, finish, wp_setJob]
            exact overSafely_failed (by simpa [hw] using hn₄) rfl
          rw [if_neg hprint]
          simp only [ne_eq, Decidable.not_not] at hprint
          simp only [wp_bind]
          apply wp_call
          · intro plan env₅
            have hn₅ := hn₄.snoc (c := .plan (some plan)) rfl
            by_cases hempty : plan.is_empty = true
            · rw [if_pos hempty]
              simp only [wp_bind, finish, wp_setJob]
              refine ⟨Or.inl (by simpa [hw] using hn₅), rfl, ?_⟩
              rintro - ⟨other, hother, hne⟩
              have hsame : other = plan := by simpa [hw] using hother
              rw [hsame, hempty] at hne
              simp at hne
            · rw [if_neg hempty]
              apply gate_spec
              · simpa [hw] using hn₅
              · simp
              · exact ⟨live, by simp, by simp [hprint]⟩
          · intro e env₅
            exact Or.inl (by simpa [hw] using hn₄.snoc (c := .plan none) rfl)
        · intro e env₄
          exact Or.inl (by simp [hw, Neutral, Call.neutral])
      · intro e env₃
        exact Or.inl (by simp [hw, Neutral, Call.neutral])
    · intro e env₂
      exact Or.inl (by simp [hw, Neutral, Call.neutral])
  · intro e env₁
    exact Or.inl (by simp [hw, Neutral, Call.neutral])

/-! ## The whole job -/

theorem Course.snoc {text : Str} {t : List Call} {c : Call} (h : Course req text t) (hc : Call.neutral c = true) :
    Course req text (t ++ [c]) := by
  rcases h with hn | ⟨p, ok, q, rfl, hn, ha, hq | ⟨hok, p', kept, rest, rfl, hp', hrest, hm⟩⟩
  · exact Or.inl (hn.snoc hc)
  · exact Or.inr ⟨p, ok, q ++ [c], by simp, hn, ha, Or.inl (hq.snoc hc)⟩
  · exact Or.inr ⟨p, ok, p' ++ Call.confirm kept :: (rest ++ [c]), by simp, hn, ha,
      Or.inr ⟨hok, p', kept, rest ++ [c], rfl, hp', hrest.snoc hc, hm⟩⟩

/-- The change is applied at most once and only when everything allowed it; it is
kept at most once, after `apply` returned, a later `open` returned and the
configuration read then matched the backup. -/
structure Safe (req : Request) (backup : Option Str) (t : List Call) : Prop where
  applied : ∀ pre post ok, t = pre ++ Call.apply ok :: post → (∀ ok', Call.apply ok' ∉ pre) ∧ Allowed req pre
  kept : ∀ pre post ok, t = pre ++ Call.confirm ok :: post → (∀ ok', Call.confirm ok' ∉ pre) ∧
    ∃ text p q, backup = some text ∧ pre = p ++ Call.apply true :: q ∧ Matched text q

theorem not_mem_of_neutral {q : List Call} (h : Neutral q) (ok : Bool) : Call.apply ok ∉ q ∧ Call.confirm ok ∉ q :=
  ⟨fun hm => by simpa [Call.neutral] using h _ hm, fun hm => by simpa [Call.neutral] using h _ hm⟩

/-- The only place of an element that occurs once. -/
theorem split_unique {α : Type} {P : α → Prop} {a b a' b' : List α} {x y : α} (h : a ++ x :: b = a' ++ y :: b')
    (ha : ∀ z ∈ a, ¬ P z) (hb : ∀ z ∈ b, ¬ P z) (hy : P y) : a' = a := by
  induction a generalizing a' with
  | nil =>
    cases a' with
    | nil => rfl
    | cons z a' =>
      simp only [List.nil_append, List.cons_append, List.cons.injEq] at h
      exact absurd hy (hb y (by simp [h.2]))
  | cons z a ih =>
    cases a' with
    | nil =>
      simp only [List.nil_append, List.cons_append, List.cons.injEq] at h
      exact absurd hy (ha y (by simp [h.1]))
    | cons z' a' =>
      simp only [List.cons_append, List.cons.injEq] at h
      rw [h.1, ih h.2 (fun z hz => ha z (by simp [hz]))]

theorem safe_of_course {text : Str} {t : List Call} (h : Course req text t) : Safe req (some text) t := by
  rcases h with hn | ⟨p, ok, q, rfl, hn, ha, hf⟩
  · constructor
    · intro pre post ok ht
      exact absurd (by simp [ht]) (not_mem_of_neutral hn ok).1
    · intro pre post ok ht
      exact absurd (by simp [ht]) (not_mem_of_neutral hn ok).2
  have hpa : ∀ z ∈ p, ¬ ∃ ok, z = .apply ok := by
    rintro z hz ⟨ok', rfl⟩
    exact (not_mem_of_neutral hn ok').1 hz
  have hpc : ∀ z ∈ p, ¬ ∃ ok, z = .confirm ok := by
    rintro z hz ⟨ok', rfl⟩
    exact (not_mem_of_neutral hn ok').2 hz
  have hqa : ∀ z ∈ q, ¬ ∃ ok, z = .apply ok := by
    rintro z hz ⟨ok', rfl⟩
    rcases hf with hq | ⟨-, p', kept, rest, rfl, hp', hrest, -⟩
    · exact (not_mem_of_neutral hq ok').1 hz
    · rcases List.mem_append.mp hz with hz | hz
      · exact (not_mem_of_neutral hp' ok').1 hz
      · exact (not_mem_of_neutral hrest ok').1 (by simpa using hz)
  constructor
  · intro pre post ok' ht
    have hpre := split_unique (P := fun z => ∃ ok, z = Call.apply ok) ht hpa hqa ⟨ok', rfl⟩
    subst hpre
    exact ⟨fun ok'' => (not_mem_of_neutral hn ok'').1, ha⟩
  · intro pre post ok' ht
    rcases hf with hq | ⟨rfl, p', kept, rest, rfl, hp', hrest, hm⟩
    · have hmem : Call.confirm ok' ∈ p ++ Call.apply ok :: q := by simp [ht]
      simp only [List.mem_append, List.mem_cons, reduceCtorEq, false_or] at hmem
      rcases hmem with hmem | hmem
      · exact absurd hmem (not_mem_of_neutral hn ok').2
      · exact absurd hmem (not_mem_of_neutral hq ok').2
    · have hbefore : ∀ z ∈ p ++ Call.apply true :: p', ¬ ∃ ok, z = Call.confirm ok := by
        rintro z hz ⟨ok'', rfl⟩
        simp only [List.mem_append, List.mem_cons, reduceCtorEq, false_or] at hz
        rcases hz with hz | hz
        · exact (not_mem_of_neutral hn ok'').2 hz
        · exact (not_mem_of_neutral hp' ok'').2 hz
      have hafter : ∀ z ∈ rest, ¬ ∃ ok, z = Call.confirm ok := by
        rintro z hz ⟨ok'', rfl⟩
        exact (not_mem_of_neutral hrest ok'').2 hz
      have ht' : (p ++ Call.apply true :: p') ++ Call.confirm kept :: rest = pre ++ Call.confirm ok' :: post := by simpa using ht
      have hpre := split_unique (P := fun z => ∃ ok, z = Call.confirm ok) ht' hbefore hafter ⟨ok', rfl⟩
      subst hpre
      exact ⟨fun ok'' hz => hbefore _ hz ⟨ok'', rfl⟩, text, p, p', rfl, rfl, hm⟩

theorem safe_of_neutral {backup : Option Str} {t : List Call} (hn : Neutral t) : Safe req backup t := by
  constructor
  · intro pre post ok ht
    exact absurd (by simp [ht]) (not_mem_of_neutral hn ok).1
  · intro pre post ok ht
    exact absurd (by simp [ht]) (not_mem_of_neutral hn ok).2

/-- A job as it is started: nothing has been asked of the device yet. -/
def start (s : σ) (job : Job) (backups : List Str) : World σ := ⟨s, job, backups, [], []⟩

/-- The course of the calls of a job, whether or not its backup still exists. -/
def CourseOf (req : Request) (backup : Option Str) (t : List Call) : Prop :=
  match backup with
  | none => Neutral t
  | some text => Course req text t

theorem CourseOf.safe {backup : Option Str} {t : List Call} (h : CourseOf req backup t) : Safe req backup t := by
  cases backup with
  | none => exact safe_of_neutral h
  | some text => exact safe_of_course h

theorem CourseOf.snoc {backup : Option Str} {t : List Call} {c : Call} (h : CourseOf req backup t)
    (hc : Call.neutral c = true) : CourseOf req backup (t ++ [c]) := by
  cases backup with
  | none => exact Neutral.snoc h hc
  | some text => exact Course.snoc h hc

theorem body_spec (s : σ) (job : Job) (backups : List Str) :
    wp (body env req) (fun _ w' => CourseOf req job.backup w'.calls ∧ w'.job.status.final = true ∧ Kept w')
      (fun _ w' => CourseOf req job.backup w'.calls) (start s job backups) := by
  simp only [body, wp_bind, wp_read]
  cases hb : job.backup with
  | none =>
    simp only [start, hb, wp_raise]
    exact Neutral.nil
  | some text =>
    simp only [start, hb]
    exact connect_spec text _ rfl

theorem finallyClose_spec (backup : Option Str) (w : World σ) (hcourse : CourseOf req backup w.calls)
    (hfinal : w.job.status.final = true) (hkept : Kept w) :
    wp (finallyClose env) (fun _ w' => Safe req backup w'.calls ∧ w'.job.status.final = true ∧ Kept w')
      (fun _ _ => False) w := by
  have hclosed : ∀ ok, Kept { w with calls := w.calls ++ [Call.close ok] } := by
    intro ok hs hplan
    have hmem := hkept hs (by simpa using hplan)
    simp [hmem]
  simp only [finallyClose, wp_bind, wp_read]
  by_cases hmade : (w.calls.any (fun c => c = .make_driver true)) = true
  · simp only [hmade, if_true, wp_bind, wp_attempt]
    apply wp_call
    · intro _ env'
      exact ⟨(hcourse.snoc rfl).safe, hfinal, hclosed true⟩
    · intro e env'
      exact ⟨(hcourse.snoc rfl).safe, hfinal, hclosed false⟩
  · simp only [hmade, Bool.false_eq_true, if_false, wp_update]
    exact ⟨hcourse.safe, hfinal, hkept⟩

end RestoreSafety
