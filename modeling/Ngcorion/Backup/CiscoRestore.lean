import Ngcorion.Backup.CiscoCompare

/-!
# Restoring an IOS configuration

What the commands of `_cisco_diff` do on a device that holds the live
configuration, scope by scope: additions displace lines of the same setting,
removals are left out for lines whose setting id was added, and lines that begin
with `no` are never removed.
-/
namespace CiscoRestore

open Text ConfigTree CiscoIOS CiscoDevice CiscoCompare

section
variable (u : Unicode)

/-! ## Conditions on a backup and a live configuration -/

/-- A line that the restore adds. -/
def Added (b l : Forest) (x : Str) : Prop := x ∈ b.keys ∧ x ∉ l.keys

/-- Every added line is a command that adds a line, and none displaces another
line of the backup. -/
def ScopeSound (b l : Forest) : Prop :=
  ∀ x, Added b l x → inert u x = false ∧ ∀ y ∈ b.keys, y ≠ x → displaces u x y = false

/-- The removal of a live-only line is left out: its setting id was added. -/
def Suppressed (b l : Forest) (z : Str) : Prop :=
  _setting_id u z ≠ [] ∧ ∃ x, Added b l x ∧ _setting_id u x = _setting_id u z

/-- A live-only line goes: an added line displaces it, or it is removed. -/
def Leaves (b l : Forest) (z : Str) : Prop :=
  (∃ x, Added b l x ∧ displaces u x z = true) ∨ isNegative u z = false ∧ ¬ Suppressed u b l z

def ScopeClears (b l : Forest) : Prop := ∀ z ∈ l.keys, z ∉ b.keys → Leaves u b l z

/-- A condition on the scopes below: on those that both sides have, and on those
of added lines against an empty scope. A sub-mode under a line that cannot be
entered must be the same already. -/
def Deep (S : Forest → Forest → Prop) : Forest → Forest → Prop
  | .nil, _ => True
  | .cons key _ children rest, l =>
    (match l.get key with
      | none => S children .nil ∧ Deep S children .nil
      | some (_, lc) => if inert u key then SameTree children lc else S children lc ∧ Deep S children lc) ∧
    Deep S rest l

/-- A condition on a scope and on all scopes below it. -/
def Scopes (S : Forest → Forest → Prop) (b l : Forest) : Prop := S b l ∧ Deep u S b l

end

variable {u : Unicode}

/-- The condition on one sub-mode that both sides have. -/
def DeepAt (u : Unicode) (S : Forest → Forest → Prop) (key : Str) (children lc : Forest) : Prop :=
  if inert u key then SameTree children lc else Scopes u S children lc

theorem deep_iff (S : Forest → Forest → Prop) (b l : Forest) : Deep u S b l ↔ ∀ e ∈ b.entries,
    (l.get e.1 = none → Scopes u S e.2.2 .nil) ∧ ∀ old lc, l.get e.1 = some (old, lc) → DeepAt u S e.1 e.2.2 lc := by
  induction b with
  | nil => simp [Deep]
  | cons key line children rest _ ih =>
    simp only [Deep, ih, Forest.entries_cons, List.forall_mem_cons]
    refine and_congr_left (fun _ => ?_)
    cases hg : l.get key with
    | none => simp [Scopes]
    | some n =>
      obtain ⟨old, lc⟩ := n
      simp [DeepAt, Scopes]

theorem scopes_clears_nil (b : Forest) : Scopes u (ScopeClears u) b .nil := by
  have hscope : ∀ b, ScopeClears u b .nil := fun b z hz => by simp at hz
  refine ⟨hscope b, ?_⟩
  induction b with
  | nil => trivial
  | cons key line children rest ihc ihr => exact ⟨⟨hscope children, ihc⟩, ihr⟩

/-! ## Which lines have a sub-mode -/

def hasChildren (f : Forest) (q : List Str) : Bool :=
  match f.atPath q with
  | some (.cons ..) => true
  | _ => false

/-- Below a path, a line has a sub-mode when it has one in either configuration. -/
def Opens (opens : List Str → Bool) (path : List Str) (b l : Forest) : Prop :=
  ∀ q, opens (path ++ q) = (hasChildren b q || hasChildren l q)

theorem hasChildren_cons (f : Forest) (key : Str) (q : List Str) :
    hasChildren f (key :: q) = match f.get key with
      | some (_, c) => hasChildren c q
      | none => false := by
  cases hg : f.get key with
  | none => simp [hasChildren, Forest.atPath, hg]
  | some n => simp [hasChildren, Forest.atPath, hg]

theorem hasChildren_nil (q : List Str) : hasChildren .nil q = false := by
  cases q with
  | nil => rfl
  | cons key q => simp [hasChildren_cons]

theorem Opens.inside {opens : List Str → Bool} {path : List Str} {b l : Forest} (h : Opens opens path b l)
    {key line : Str} {c : Forest} (hb : b.get key = some (line, c)) :
    Opens opens (path ++ [key]) c (((l.get key).map Prod.snd).getD .nil) := by
  intro q
  have hq := h (key :: q)
  rw [hasChildren_cons, hasChildren_cons, hb] at hq
  rw [List.append_assoc, List.singleton_append, hq]
  cases hl : l.get key with
  | none => simp [hasChildren_nil]
  | some n => rfl

theorem Opens.here {opens : List Str → Bool} {path : List Str} {b l : Forest} (h : Opens opens path b l) :
    opens path = decide (b ≠ .nil ∨ l ≠ .nil) := by
  have hq := h []
  rw [List.append_nil] at hq
  rw [hq]
  cases b <;> cases l <;> simp [hasChildren, Forest.atPath]

/-! ## Recreating a sub-mode -/

theorem place_append (gives : Str → Bool) (line : Str) (es : List (Str × Str × Forest))
    (h : ∀ e ∈ es, gives e.1 = false) : place gives line es = es ++ [(line, line, Forest.nil)] := by
  induction es with
  | nil => rfl
  | cons e es ih =>
    have he := h e (by simp)
    simp [place, he, ih (fun e' he' => h e' (by simp [he']))]

theorem addLine_append (line : Str) (f : Forest) (hn : line ∉ f.keys) (h : ∀ k ∈ f.keys, displaces u line k = false) :
    addLine u line f = .ofEntries (f.entries ++ [(line, line, Forest.nil)]) := by
  rw [addLine, if_neg hn, place_append]
  exact fun e he => h e.1 (List.mem_map_of_mem he)

theorem set_last (es : List (Str × Str × Forest)) (line : Str) (c : Forest) (h : line ∉ Dict.keys es) :
    (Forest.ofEntries (es ++ [(line, line, Forest.nil)])).set line line c = .ofEntries (es ++ [(line, line, c)]) := by
  simp only [Forest.set, Forest.entries_ofEntries]
  congr 1
  induction es with
  | nil => simp [Dict.set]
  | cons e es ih =>
    obtain ⟨k, v⟩ := e
    simp only [Dict.keys_cons, List.mem_cons, not_or] at h
    simp [Dict.set, Ne.symm h.1, ih h.2]

/-- A new line with its sub-mode, given how the sub-mode is filled. -/
theorem runs_new {opens : List Str → Bool} {path : List Str} (depth : Nat) {line : Str} {children f : Forest}
    (hbare : line.head? ≠ some ' ') (hi : inert u line = false) (hopen : Opens opens (path ++ [line]) children .nil)
    (hf : line ∉ f.keys) (hin : Runs u opens (path ++ [line]) (blockBody (depth + 1) children) .nil children) :
    Runs u opens path (blockBody depth (.cons line line children .nil)) f
      ((addLine u line f).set line line children) := by
  have hhere := hopen.here
  have hget : (addLine u line f).get line = some (line, .nil) := by
    rw [get_addLine u line f hf]
    simp
  by_cases hnil : children = .nil
  · subst hnil
    have hsame : (addLine u line f).set line line .nil = addLine u line f := by
      simp only [Forest.set, Dict.set_self _ _ _ hget, Forest.ofEntries_entries]
    rw [hsame]
    simpa [blockBody_cons, indented] using runs_line depth line hbare hi (by simpa using hhere) f
  · have hmode := runs_mode depth line hbare hi (by simp [hhere, hnil]) _ f .nil children hget hin
    simpa [blockBody_cons, indented, hnil] using hmode

/-- The block commands append an exact copy of a sub-mode. -/
theorem runs_block (opens : List Str → Bool) (c : Forest) (hc : c.Every (Plain u)) (depth : Nat) (path : List Str)
    (hopens : ∀ e ∈ c.entries, Opens opens (path ++ [e.1]) e.2.2 .nil)
    (hsound : ∀ x ∈ c.keys, inert u x = false ∧ ∀ y ∈ c.keys, y ≠ x → displaces u x y = false)
    (hdeep : Deep u (ScopeSound u) c .nil) (f : Forest)
    (hf : ∀ x ∈ c.keys, x ∉ f.keys ∧ ∀ k ∈ f.keys, displaces u x k = false) :
    Runs u opens path (blockBody depth c) f (.ofEntries (f.entries ++ c.entries)) := by
  induction c generalizing depth path f with
  | nil => simpa using Runs.nil f
  | cons key line children rest ihc ihr =>
    obtain ⟨hkey, hplain, hchildren, hrest⟩ := hc
    have hline := hplain.line_eq
    subst hline
    obtain ⟨⟨hscope, hdeepc⟩, hdeepr⟩ := hdeep
    have hopen := hopens (line, line, children) (by simp)
    have hfresh := hf line (by simp)
    have hin : Runs u opens (path ++ [line]) (blockBody (depth + 1) children) .nil children := by
      have hrun := ihc hchildren (depth + 1) (path ++ [line])
        (fun e he => by
          have hget := (Forest.get_eq_some children hchildren.nodup e.1 e.2.1 e.2.2).mpr he
          simpa using hopen.inside hget)
        (fun x hx => hscope x ⟨hx, by simp⟩) hdeepc .nil (by simp)
      simpa using hrun
    have hstep := runs_new depth hplain.bare (hsound line (by simp)).1 hopen hfresh.1 hin
    rw [addLine_append line f hfresh.1 hfresh.2, set_last f.entries line children hfresh.1] at hstep
    have hlater := ihr hrest depth path (fun e he => hopens e (by simp [he]))
      (fun x hx => ⟨(hsound x (by simp [hx])).1, fun y hy => (hsound x (by simp [hx])).2 y (by simp [hy])⟩) hdeepr
      (.ofEntries (f.entries ++ [(line, line, children)])) (by
        intro x hx
        have hne : x ≠ line := fun h => hkey (h ▸ hx)
        have hfx := hf x (by simp [hx])
        have hkeys : (Forest.ofEntries (f.entries ++ [(line, line, children)])).keys = f.keys ++ [line] := by
          simp [Forest.keys, Dict.keys]
        rw [hkeys]
        refine ⟨by simp [hfx.1, hne], ?_⟩
        intro k hk
        rcases List.mem_append.mp hk with hk | hk
        · exact hfx.2 k hk
        · rw [List.mem_singleton.mp hk]
          exact (hsound x (by simp [hx])).2 line (by simp) (Ne.symm hne))
    have hall := hstep.append hlater
    simpa [blockBody_cons] using hall

/-- The sub-mode of an added line is filled with an exact copy. -/
theorem runs_submode {opens : List Str → Bool} {path : List Str} {c : Forest} (hc : c.Every (Plain u)) (depth : Nat)
    (hopen : Opens opens path c .nil) (hsound : Scopes u (ScopeSound u) c .nil) :
    Runs u opens path (blockBody depth c) .nil c := by
  have hrun := runs_block opens c hc depth path
    (fun e he => by
      have hget := (Forest.get_eq_some c hc.nodup e.1 e.2.1 e.2.2).mpr he
      simpa using hopen.inside hget)
    (fun x hx => hsound.1 x ⟨hx, by simp⟩) hsound.2 .nil (by simp)
  simpa using hrun

/-! ## The additions -/

/-- The additions as a whole: every added line is there with its sub-mode, the
lines they displace are gone, and the others are as before. -/
structure Grown (b l f g : Forest) : Prop where
  added : ∀ e ∈ b.entries, l.get e.1 = none → g.get e.1 = some (e.1, e.2.2)
  gone : ∀ key, ¬ Added b l key → (∃ x, Added b l x ∧ displaces u x key = true) → g.get key = none
  kept : ∀ key, ¬ Added b l key → (∀ x, Added b l x → displaces u x key = false) → g.get key = f.get key

theorem get_added (line : Str) (children f : Forest) (hf : line ∉ f.keys) (key : Str) :
    ((addLine u line f).set line line children).get key =
      if key = line then some (line, children) else if displaces u line key then none else f.get key := by
  rw [Forest.get_set, get_addLine u line f hf]
  by_cases h : key = line
  · simp [h]
  · simp [h, Ne.symm h]

theorem backupLoop_shared (path : List Str) {key line : Str} {children l : Forest} (rest : Forest) (m : Marks)
    {n : Str × Forest} (hp : Plain u key line children) (hg : l.get key = some n) :
    ∃ m', (backupLoop u path (.cons key line children rest) l m).adds = (backupLoop u path rest l m').adds ∧
      (backupLoop u path (.cons key line children rest) l m).settings = (backupLoop u path rest l m').settings := by
  obtain ⟨old, lc⟩ := n
  by_cases hnil : children = .nil ∧ lc = .nil
  · obtain ⟨rfl, rfl⟩ := hnil
    rw [backupLoop_leaf hp hg]
    exact ⟨m, rfl, rfl⟩
  · rw [backupLoop_scope hp hg hnil]
    exact ⟨_, rfl, rfl⟩

theorem added_shared {key : Str} (line : Str) (children rest : Forest) {l : Forest} {n : Str × Forest}
    (hg : l.get key = some n) (x : Str) :
    Added (.cons key line children rest) l x ↔ Added rest l x := by
  have hkey : key ∈ l.keys := by simp [Forest.mem_keys, hg]
  simp only [Added, Forest.keys_cons, List.mem_cons]
  constructor
  · rintro ⟨rfl | hx, hl⟩
    · exact absurd hkey hl
    · exact ⟨hx, hl⟩
  · exact fun h => ⟨Or.inr h.1, h.2⟩

theorem added_new {key : Str} (line : Str) (children rest : Forest) {l : Forest} (hg : l.get key = none) (x : Str) :
    Added (.cons key line children rest) l x ↔ x = key ∨ Added rest l x := by
  have hkey := (Forest.get_eq_none l key).mp hg
  simp only [Added, Forest.keys_cons, List.mem_cons]
  constructor
  · rintro ⟨rfl | hx, hl⟩
    · exact Or.inl rfl
    · exact Or.inr ⟨hx, hl⟩
  · rintro (rfl | h)
    · exact ⟨Or.inl rfl, hkey⟩
    · exact ⟨Or.inr h.1, h.2⟩

theorem runs_adds (opens : List Str → Bool) (b : Forest) (hb : b.Every (Plain u)) (path : List Str) (l : Forest)
    (m : Marks) (hopens : ∀ e ∈ b.entries, l.get e.1 = none → Opens opens (path ++ [e.1]) e.2.2 .nil)
    (hsound : ScopeSound u b l) (hdeep : Deep u (ScopeSound u) b l) (f : Forest) (hf : ∀ x, Added b l x → x ∉ f.keys) :
    ∃ g, Runs u opens path (backupLoop u path b l m).adds f g ∧ Grown (u := u) b l f g := by
  induction b generalizing m f with
  | nil => exact ⟨f, Runs.nil f, by simp, by simp [Added], fun _ _ _ => rfl⟩
  | cons key line children rest _ ihr =>
    obtain ⟨hkey, hplain, hchildren, hrest⟩ := hb
    have hopensr : ∀ e ∈ rest.entries, l.get e.1 = none → Opens opens (path ++ [e.1]) e.2.2 .nil :=
      fun e he => hopens e (by simp [he])
    cases hg : l.get key with
    | some n =>
      have hadded := added_shared line children rest hg
      obtain ⟨m', hadds, -⟩ := backupLoop_shared path rest m hplain hg
      have hsoundr : ScopeSound u rest l := by
        intro x hx
        obtain ⟨hi, hd⟩ := hsound x ((hadded x).mpr hx)
        exact ⟨hi, fun y hy => hd y (by simp [hy])⟩
      obtain ⟨g, hrun, hgrown⟩ := ihr hrest m' hopensr hsoundr hdeep.2 f (fun x hx => hf x ((hadded x).mpr hx))
      refine ⟨g, hadds ▸ hrun, ?_, ?_, ?_⟩
      · intro e he hnone
        rcases List.mem_cons.mp he with rfl | he
        · simp [hg] at hnone
        · exact hgrown.added e he hnone
      · intro k hk hx
        exact hgrown.gone k (by rwa [← hadded]) (by simpa only [hadded] using hx)
      · intro k hk hx
        exact hgrown.kept k (by rwa [← hadded]) (by simpa only [hadded] using hx)
    | none =>
      have hadded := added_new line children rest hg
      have hnew : Added (.cons key line children rest) l key := (hadded key).mpr (Or.inl rfl)
      obtain ⟨hi, hdisp⟩ := hsound key hnew
      have hline := hplain.line_eq
      subst hline
      have hdeepc : Scopes u (ScopeSound u) children .nil := by
        have h := hdeep.1
        rw [hg] at h
        exact h
      have hopen := hopens (line, line, children) (by simp) hg
      have hfresh := hf line hnew
      have hstep := runs_new 0 hplain.bare hi hopen hfresh (runs_submode hchildren 1 hopen hdeepc)
      have hget := get_added (u := u) line children f hfresh
      have hsoundr : ScopeSound u rest l := by
        intro x hx
        obtain ⟨hi, hd⟩ := hsound x ((hadded x).mpr (Or.inr hx))
        exact ⟨hi, fun y hy => hd y (by simp [hy])⟩
      have hfr : ∀ x, Added rest l x → x ∉ ((addLine u line f).set line line children).keys := by
        intro x hx
        rw [← Forest.get_eq_none, hget]
        have hne : x ≠ line := fun h => hkey (h ▸ hx.1)
        have hnone := (Forest.get_eq_none f x).mpr (hf x ((hadded x).mpr (Or.inr hx)))
        simp [hne, hnone]
      obtain ⟨g, hrun, hgrown⟩ := ihr hrest (markTree (titleOf path) .added line children m) hopensr hsoundr hdeep.2 _ hfr
      have hnotr : ¬ Added rest l line := fun h => hkey h.1
      have hhere : g.get line = some (line, children) := by
        rw [hgrown.kept line hnotr (fun x hx => ?_), hget, if_pos rfl]
        have hne : line ≠ x := fun h => hkey (h ▸ hx.1)
        exact (hsound x ((hadded x).mpr (Or.inr hx))).2 line (by simp) hne
      refine ⟨g, ?_, ?_, ?_, ?_⟩
      · rw [backupLoop_new hplain hg]
        exact hstep.append hrun
      · intro e he hnone
        rcases List.mem_cons.mp he with rfl | he
        · exact hhere
        · exact hgrown.added e he hnone
      · rintro k hk ⟨x, hx, hdx⟩
        rw [hadded, not_or] at hk
        by_cases hother : ∃ y, Added rest l y ∧ displaces u y k = true
        · exact hgrown.gone k hk.2 hother
        · rw [hgrown.kept k hk.2 (by simpa using hother), hget, if_neg hk.1]
          rcases (hadded x).mp hx with rfl | hx
          · simp [hdx]
          · exact absurd ⟨x, hx, hdx⟩ hother
      · intro k hk hx
        rw [hadded, not_or] at hk
        rw [hgrown.kept k hk.2 (fun y hy => hx y ((hadded y).mpr (Or.inr hy))), hget, if_neg hk.1, hx line hnew]
        simp

/-! ## The removals -/

/-- The live lines that the second loop removes, given the settings that were added. -/
def removes (u : Unicode) (b : Forest) (settings : List Str) (key : Str) : Bool :=
  key ∉ b.keys ∧ isNegative u key = false ∧ ¬ (_setting_id u key ≠ [] ∧ _setting_id u key ∈ settings)

theorem liveLoop_commands (title : Str) (b : Forest) (settings : List Str) (l : Forest) (hl : l.Every (Plain u))
    (m : Marks) : (liveLoop u title b settings l m).1 = (l.keys.filter (removes u b settings)).map noCommand := by
  induction l generalizing m with
  | nil => rfl
  | cons key line children rest _ ihr =>
    obtain ⟨-, hplain, -, hrest⟩ := hl
    simp only [liveLoop, ihr hrest, hplain.restorable, hplain.no_banner, Forest.keys_cons]
    by_cases hb : key ∈ b.keys
    · simp [hb, removes]
    · by_cases hneg : isNegative u key = true
      · simp [hb, hneg, removes]
      · by_cases hset : _setting_id u key ≠ [] ∧ _setting_id u key ∈ settings
        · simp [hb, hneg, hset, removes]
        · simp [hb, hneg, hset, removes]

theorem runs_erase (opens : List Str → Bool) (path keys : List Str) (f : Forest) :
    Runs u opens path (keys.map noCommand) f (keys.foldl Forest.erase f) := by
  induction keys generalizing f with
  | nil => exact Runs.nil f
  | cons key keys ih => exact (runs_no key f).append (ih (f.erase key))

theorem get_foldl_erase (keys : List Str) (f : Forest) (key : Str) :
    (keys.foldl Forest.erase f).get key = if key ∈ keys then none else f.get key := by
  induction keys generalizing f with
  | nil => simp
  | cons k keys ih =>
    rw [List.foldl_cons, ih, Forest.get_erase]
    by_cases hk : key = k
    · simp [hk]
    · simp [hk, Ne.symm hk]

theorem mem_settings (b : Forest) (hb : b.Every (Plain u)) (path : List Str) (l : Forest) (m : Marks) (s : Str) :
    s ∈ (backupLoop u path b l m).settings ↔ s ≠ [] ∧ ∃ x, Added b l x ∧ _setting_id u x = s := by
  induction b generalizing m with
  | nil => simp [Added]
  | cons key line children rest _ ihr =>
    obtain ⟨-, hplain, -, hrest⟩ := hb
    cases hg : l.get key with
    | some n =>
      obtain ⟨m', -, hset⟩ := backupLoop_shared path rest m hplain hg
      rw [hset, ihr hrest m']
      simp only [added_shared line children rest hg]
    | none =>
      rw [backupLoop_new hplain hg]
      simp only [List.mem_append, ihr hrest, added_new line children rest hg, or_and_right, exists_or, exists_eq_left]
      by_cases hid : _setting_id u key = []
      · simp only [hid, if_true, List.not_mem_nil, false_or]
        constructor
        · exact fun h => ⟨h.1, Or.inr h.2⟩
        · rintro ⟨hs, h | h⟩
          · exact absurd h.symm hs
          · exact ⟨hs, h⟩
      · simp only [hid, if_false, List.mem_singleton]
        constructor
        · rintro (rfl | h)
          · exact ⟨hid, Or.inl rfl⟩
          · exact ⟨h.1, Or.inr h.2⟩
        · rintro ⟨hs, h | h⟩
          · exact Or.inl h.symm
          · exact Or.inr ⟨hs, h⟩

/-- A live-only line is removed unless it begins with `no` or its setting id was added. -/
theorem removes_iff (b : Forest) (hb : b.Every (Plain u)) (path : List Str) (l : Forest) (m : Marks) (key : Str) :
    removes u b (backupLoop u path b l m).settings key = true ↔
      key ∉ b.keys ∧ isNegative u key = false ∧ ¬ Suppressed u b l key := by
  simp only [removes, mem_settings b hb, Suppressed, decide_eq_true_eq, and_self_left]

/-! ## Equal configurations -/

theorem covers_iff (b g : Forest) :
    Covers b g ↔ ∀ e ∈ b.entries, ∃ line c, g.get e.1 = some (line, c) ∧ SameTree e.2.2 c := by
  induction b with
  | nil => simp [Covers]
  | cons key line children rest _ ih => simp [Covers, SameTree, ih]

theorem covers_of_suffix (b : Forest) (hb : b.Every (Plain u)) (g : Forest)
    (hg : ∀ e ∈ b.entries, g.get e.1 = some e.2) : Covers b g := by
  induction b generalizing g with
  | nil => trivial
  | cons key line children rest ihc ihr =>
    obtain ⟨-, -, hchildren, hrest⟩ := hb
    have hinside : Covers children children := ihc hchildren children
      (fun e he => (Forest.get_eq_some children hchildren.nodup e.1 e.2.1 e.2.2).mpr he)
    exact ⟨⟨line, children, hg (key, line, children) (by simp), hinside, fun _ h => h⟩,
      ihr hrest g (fun e he => hg e (by simp [he]))⟩

theorem sameTree_refl {b : Forest} (hb : b.Every (Plain u)) : SameTree b b :=
  ⟨covers_of_suffix b hb b (fun e he => (Forest.get_eq_some b hb.nodup e.1 e.2.1 e.2.2).mpr he), fun _ h => h⟩

theorem diff_nil {path : List Str} {b l : Forest} {diff : ConfigDiff} (hl : l.Every (Plain u))
    (hkeys : ∀ k ∈ l.keys, k ∈ b.keys)
    (hloop : (backupLoop u path b l ⟨diff, none⟩).adds = [] ∧ (backupLoop u path b l ⟨diff, none⟩).nested = []) :
    (_cisco_diff u b l path diff).1 = [] := by
  simp only [_cisco_diff, hloop.1, hloop.2, liveLoop_commands _ _ _ l hl, List.nil_append, List.map_eq_nil_iff,
    List.filter_eq_nil_iff]
  intro k hk
  simp [removes, hkeys k hk]

theorem backupLoop_covered (b : Forest) (hb : b.Every (Plain u)) (path : List Str) (l : Forest) (hl : l.Every (Plain u))
    (m : Marks) (hc : Covers b l) :
    (backupLoop u path b l m).adds = [] ∧ (backupLoop u path b l m).nested = [] := by
  induction b generalizing path l m with
  | nil => exact ⟨rfl, rfl⟩
  | cons key line children rest ihc ihr =>
    obtain ⟨-, hplain, hchildren, hrest⟩ := hb
    obtain ⟨⟨old, lc, hg, hcov, hkeys⟩, hcr⟩ := hc
    by_cases hnil : children = .nil ∧ lc = .nil
    · obtain ⟨rfl, rfl⟩ := hnil
      rw [backupLoop_leaf hplain hg]
      exact ihr hrest path l hl m hcr
    · have hlc := (hl.get hg).2
      have hinner := diff_nil hlc hkeys (ihc hchildren (path ++ [key]) lc hlc ⟨m.diff, none⟩ hcov)
      rw [backupLoop_scope hplain hg hnil]
      have hlater := ihr hrest path l hl ⟨(_cisco_diff u children lc (path ++ [key]) m.diff).2, m.current⟩ hcr
      simp [hinner, hlater.1, hlater.2]

/-- Nothing is sent for a scope that is the same already. -/
theorem diff_nil_of_sameTree {path : List Str} {b l : Forest} (diff : ConfigDiff) (hb : b.Every (Plain u))
    (hl : l.Every (Plain u)) (h : SameTree b l) : (_cisco_diff u b l path diff).1 = [] :=
  diff_nil hl h.2 (backupLoop_covered b hb path l hl ⟨diff, none⟩ h.1)

/-! ## Whole scopes -/

theorem exists_atPath (path : List Str) (f : Forest) : ∃ root : Forest, root.atPath path = some f := by
  induction path with
  | nil => exact ⟨f, rfl⟩
  | cons key path ih =>
    obtain ⟨root, hroot⟩ := ih
    exact ⟨.cons key key root .nil, by simp [Forest.atPath, Forest.get_cons, hroot]⟩

theorem runs_nil_eq {opens : List Str → Bool} {path : List Str} {f g : Forest} (h : Runs u opens path [] f g) :
    f = g := by
  obtain ⟨root, hroot⟩ := exists_atPath path f
  have hsame : root = root.changeAt (fun _ => g) path := congrArg Device.root (h root hroot)
  have hat := Forest.atPath_changeAt (fun _ => g) path root f hroot
  rw [← hsame, hroot] at hat
  exact Option.some.inj hat

/-- The result of one scope: the commands run there, and the result is the backup
exactly when every scope loses what it has to lose. -/
def Restores (u : Unicode) (opens : List Str → Bool) (path : List Str) (b l : Forest) (cmds : List Str) : Prop :=
  ∃ g, Runs u opens path cmds l g ∧ (SameTree b g ↔ Scopes u (ScopeClears u) b l)

/-- The changes inside the sub-modes that both sides have: nothing else changes. -/
structure Entered (b l f g : Forest) : Prop where
  other : ∀ key, key ∉ b.keys ∨ l.get key = none → g.get key = f.get key
  shared : ∀ e ∈ b.entries, ∀ old lc, l.get e.1 = some (old, lc) →
    ∃ line c, g.get e.1 = some (line, c) ∧ (SameTree e.2.2 c ↔ DeepAt u (ScopeClears u) e.1 e.2.2 lc)

/-- The removals: the live-only lines that are neither negative nor of an added setting. -/
structure Pruned (b l f g : Forest) : Prop where
  gone : ∀ key ∈ l.keys, key ∉ b.keys → isNegative u key = false → ¬ Suppressed u b l key → g.get key = none
  kept : ∀ key, ¬ (key ∈ l.keys ∧ key ∉ b.keys ∧ isNegative u key = false ∧ ¬ Suppressed u b l key) →
    g.get key = f.get key

theorem runs_removes (opens : List Str → Bool) {path : List Str} {b l : Forest} (hb : b.Every (Plain u))
    (hl : l.Every (Plain u)) (m m' : Marks) (f : Forest) :
    ∃ g, Runs u opens path (liveLoop u (titleOf path) b (backupLoop u path b l m).settings l m').1 f g ∧
      Pruned (u := u) b l f g := by
  rw [liveLoop_commands _ _ _ l hl]
  have hmem : ∀ key, key ∈ l.keys.filter (removes u b (backupLoop u path b l m).settings) ↔
      key ∈ l.keys ∧ key ∉ b.keys ∧ isNegative u key = false ∧ ¬ Suppressed u b l key := by
    intro key
    rw [List.mem_filter, removes_iff b hb]
  refine ⟨_, runs_erase opens path _ f, ?_, ?_⟩
  · intro key hkl hkb hneg hsup
    rw [get_foldl_erase, if_pos ((hmem key).mpr ⟨hkl, hkb, hneg, hsup⟩)]
  · intro key hkey
    rw [get_foldl_erase, if_neg (fun h => hkey ((hmem key).mp h))]

section
variable {b l g₁ g₂ g₃ : Forest}

/-- After the three parts of a run, every line of the backup is there; what is
inside it is right when the scopes below are cleared. -/
theorem covers_restored (hb : b.Every (Plain u)) (h₁ : Grown (u := u) b l l g₁) (h₂ : Entered (u := u) b l g₁ g₂)
    (h₃ : Pruned (u := u) b l g₂ g₃) : Covers b g₃ ↔ Deep u (ScopeClears u) b l := by
  rw [covers_iff, deep_iff]
  refine forall₂_congr (fun e he => ?_)
  have hkey : e.1 ∈ b.keys := List.mem_map_of_mem he
  rw [h₃.kept e.1 (fun h => h.2.1 hkey)]
  cases hg : l.get e.1 with
  | none =>
    have hadd := h₁.added e he hg
    rw [← h₂.other e.1 (Or.inr hg)] at hadd
    have hsame := sameTree_refl (hb.entry he).2
    simp [hadd, hsame, scopes_clears_nil]
  | some n =>
    obtain ⟨old, lc⟩ := n
    obtain ⟨line, c, hc, hiff⟩ := h₂.shared e he old lc hg
    simp [hc, hiff]

/-- Of the other lines those of the live configuration that do not leave are there. -/
theorem mem_restored (h₁ : Grown (u := u) b l l g₁) (h₂ : Entered (u := u) b l g₁ g₂)
    (h₃ : Pruned (u := u) b l g₂ g₃) (key : Str) (hkey : key ∉ b.keys) :
    key ∈ g₃.keys ↔ key ∈ l.keys ∧ ¬ Leaves u b l key := by
  have hmem := fun f => Forest.mem_keys f key
  have hother := h₂.other key (Or.inl hkey)
  have hnot : ¬ Added b l key := fun h => hkey h.1
  by_cases hdisp : ∃ x, Added b l x ∧ displaces u x key = true
  · have hgone := h₁.gone key hnot hdisp
    have hnone : g₃.get key = none := by
      by_cases hpruned : key ∈ l.keys ∧ key ∉ b.keys ∧ isNegative u key = false ∧ ¬ Suppressed u b l key
      · exact h₃.gone key hpruned.1 hkey hpruned.2.2.1 hpruned.2.2.2
      · rw [h₃.kept key hpruned, hother, hgone]
    simp [hmem, hnone, Leaves, hdisp]
  · have hkept := h₁.kept key hnot (by simpa using hdisp)
    by_cases hpruned : isNegative u key = false ∧ ¬ Suppressed u b l key
    · have hleaves : Leaves u b l key := Or.inr hpruned
      by_cases hkl : key ∈ l.keys
      · simp [hmem g₃, h₃.gone key hkl hkey hpruned.1 hpruned.2, hleaves]
      · rw [hmem g₃, h₃.kept key (fun h => hkl h.1), hother, hkept, ← hmem]
        simp [hkl]
    · rw [hmem g₃, h₃.kept key (fun h => hpruned h.2.2), hother, hkept, ← hmem]
      simp [Leaves, hdisp, hpruned]

theorem sameTree_restored (hb : b.Every (Plain u)) (h₁ : Grown (u := u) b l l g₁) (h₂ : Entered (u := u) b l g₁ g₂)
    (h₃ : Pruned (u := u) b l g₂ g₃) : SameTree b g₃ ↔ Scopes u (ScopeClears u) b l := by
  have hclears : (∀ k ∈ g₃.keys, k ∈ b.keys) ↔ ScopeClears u b l := by
    constructor
    · intro h z hz hzb
      by_contra hleave
      exact hzb (h z ((mem_restored h₁ h₂ h₃ z hzb).mpr ⟨hz, hleave⟩))
    · intro h k hk
      by_contra hkb
      obtain ⟨hkl, hleave⟩ := (mem_restored h₁ h₂ h₃ k hkb).mp hk
      exact hleave (h k hkl hkb)
  rw [SameTree, covers_restored hb h₁ h₂ h₃, hclears, Scopes, and_comm]

end

/-- Additions, sub-modes and removals of one scope together. -/
theorem restores_scope {opens : List Str → Bool} {path : List Str} {b l : Forest} (diff : ConfigDiff)
    (hb : b.Every (Plain u)) (hl : l.Every (Plain u)) (hopens : Opens opens path b l)
    (hsound : Scopes u (ScopeSound u) b l)
    (hnested : ∀ f, (∀ key ∈ b.keys, key ∈ l.keys → f.get key = l.get key) →
      ∃ g, Runs u opens path (backupLoop u path b l ⟨diff, none⟩).nested f g ∧ Entered (u := u) b l f g) :
    Restores u opens path b l (_cisco_diff u b l path diff).1 := by
  have hopenb : ∀ e ∈ b.entries, l.get e.1 = none → Opens opens (path ++ [e.1]) e.2.2 .nil := by
    intro e he hnone
    have hin := hopens.inside ((Forest.get_eq_some b hb.nodup e.1 e.2.1 e.2.2).mpr he)
    simpa [hnone] using hin
  obtain ⟨g₁, hrun₁, h₁⟩ := runs_adds opens b hb path l ⟨diff, none⟩ hopenb hsound.1 hsound.2 l (fun x hx => hx.2)
  have hshared : ∀ key ∈ b.keys, key ∈ l.keys → g₁.get key = l.get key := by
    intro key hkb hkl
    apply h₁.kept key (fun h => h.2 hkl)
    intro x hx
    exact (hsound.1 x hx).2 key hkb (fun h => hx.2 (h ▸ hkl))
  obtain ⟨g₂, hrun₂, h₂⟩ := hnested g₁ hshared
  obtain ⟨g₃, hrun₃, h₃⟩ := runs_removes opens hb hl ⟨diff, none⟩ (backupLoop u path b l ⟨diff, none⟩).marks g₂
  exact ⟨g₃, (hrun₁.append hrun₂).append hrun₃, sameTree_restored hb h₁ h₂ h₃⟩

/-- The commands for a sub-mode that both sides have: none when nothing inside changes. -/
def enter (key : Str) (inner : List Str) : List Str := if inner = [] then [] else key :: (inner ++ [lit "exit"])

theorem nested_shared (path : List Str) {key line old : Str} {children l lc : Forest} (rest : Forest) (m : Marks)
    (hp : Plain u key line children) (hg : l.get key = some (old, lc)) :
    ∃ m', (backupLoop u path (.cons key line children rest) l m).nested =
      enter key (_cisco_diff u children lc (path ++ [key]) m.diff).1 ++ (backupLoop u path rest l m').nested := by
  by_cases hnil : children = .nil ∧ lc = .nil
  · obtain ⟨rfl, rfl⟩ := hnil
    rw [backupLoop_leaf hp hg]
    exact ⟨m, rfl⟩
  · rw [backupLoop_scope hp hg hnil]
    exact ⟨_, rfl⟩

/-- A sub-mode that both sides have, given how its scope is restored. -/
theorem runs_enter {opens : List Str → Bool} {path : List Str} {key : Str} {children lc f : Forest} (diff : ConfigDiff)
    (hp : Plain u key key children) (hchildren : children.Every (Plain u)) (hlc : lc.Every (Plain u))
    (hopen : Opens opens (path ++ [key]) children lc) (hsound : DeepAt u (ScopeSound u) key children lc)
    (hf : f.get key = some (key, lc))
    (hin : Scopes u (ScopeSound u) children lc →
      Restores u opens (path ++ [key]) children lc (_cisco_diff u children lc (path ++ [key]) diff).1) :
    ∃ c, Runs u opens path (enter key (_cisco_diff u children lc (path ++ [key]) diff).1) f (f.set key key c) ∧
      (SameTree children c ↔ DeepAt u (ScopeClears u) key children lc) := by
  have hsame : f.set key key lc = f := by
    simp only [Forest.set, Dict.set_self _ _ _ hf, Forest.ofEntries_entries]
  by_cases hi : inert u key = true
  · simp only [DeepAt, hi, if_true] at hsound ⊢
    refine ⟨lc, ?_, Iff.rfl⟩
    rw [diff_nil_of_sameTree diff hchildren hlc hsound, hsame]
    exact Runs.nil f
  · simp only [DeepAt, hi, Bool.false_eq_true, if_false] at hsound ⊢
    obtain ⟨g, hrun, hiff⟩ := hin hsound
    refine ⟨g, ?_, hiff⟩
    by_cases hinner : (_cisco_diff u children lc (path ++ [key]) diff).1 = []
    · rw [hinner] at hrun
      rw [hinner, ← runs_nil_eq hrun, hsame]
      exact Runs.nil f
    · have hmem : key ∈ f.keys := by simp [Forest.mem_keys, hf]
      have hadd := addLine_of_mem u key f hmem
      have htrue : opens (path ++ [key]) = true := by
        rw [hopen.here, decide_eq_true_eq]
        by_contra hnil
        push Not at hnil
        exact hinner (by rw [hnil.1, hnil.2]; rfl)
      have hmode := runs_mode 0 key hp.bare (by simpa using hi) htrue _ f lc g (by rwa [hadd]) hrun
      rw [hadd] at hmode
      simpa [enter, hinner, indented] using hmode

theorem runs_nested (opens : List Str → Bool) (b : Forest) (hb : b.Every (Plain u)) (path : List Str) (l : Forest)
    (hl : l.Every (Plain u)) (m : Marks)
    (hopens : ∀ e ∈ b.entries, ∀ old lc, l.get e.1 = some (old, lc) → Opens opens (path ++ [e.1]) e.2.2 lc)
    (hdeep : Deep u (ScopeSound u) b l) (f : Forest) (hf : ∀ key ∈ b.keys, key ∈ l.keys → f.get key = l.get key) :
    ∃ g, Runs u opens path (backupLoop u path b l m).nested f g ∧ Entered (u := u) b l f g := by
  induction b generalizing path l m f with
  | nil => exact ⟨f, Runs.nil f, fun _ _ => rfl, by simp⟩
  | cons key line children rest ihc ihr =>
    obtain ⟨hkey, hplain, hchildren, hrest⟩ := hb
    have hopensr : ∀ e ∈ rest.entries, ∀ old lc, l.get e.1 = some (old, lc) → Opens opens (path ++ [e.1]) e.2.2 lc :=
      fun e he => hopens e (by simp [he])
    have hother : ∀ k ∈ rest.keys, k ≠ key := fun k hk h => hkey (h ▸ hk)
    cases hg : l.get key with
    | none =>
      rw [backupLoop_new hplain hg]
      obtain ⟨g, hrun, hentered⟩ := ihr hrest path l hl _ hopensr hdeep.2 f (fun k hk => hf k (by simp [hk]))
      refine ⟨g, hrun, ?_, ?_⟩
      · rintro k (hk | hk)
        · exact hentered.other k (Or.inl (fun h => hk (by simp [h])))
        · exact hentered.other k (Or.inr hk)
      · intro e he old lc hlc
        rcases List.mem_cons.mp he with rfl | he
        · simp [hg] at hlc
        · exact hentered.shared e he old lc hlc
    | some n =>
      obtain ⟨old, lc⟩ := n
      have hkl : key ∈ l.keys := by simp [Forest.mem_keys, hg]
      have hline := hplain.line_eq
      subst hline
      obtain ⟨hpl, hlc⟩ := hl.get hg
      have hold : old = line := hpl.line_eq
      subst hold
      have hopen := hopens (old, old, children) (by simp) old lc hg
      have hsound : DeepAt u (ScopeSound u) old children lc :=
        ((deep_iff _ _ _).mp hdeep (old, old, children) (by simp)).2 old lc hg
      obtain ⟨m', hcmds⟩ := nested_shared path rest m hplain hg
      obtain ⟨c, hrun, hiff⟩ := runs_enter m.diff hplain hchildren hlc hopen hsound
        ((hf old (by simp) hkl).trans hg) (fun hs => restores_scope m.diff hchildren hlc hopen hs
          (ihc hchildren (path ++ [old]) lc hlc ⟨m.diff, none⟩ (fun e he o c hc => by
            have hin := hopen.inside ((Forest.get_eq_some children hchildren.nodup e.1 e.2.1 e.2.2).mpr he)
            simpa [hc] using hin) hs.2))
      have hset : ∀ k, k ≠ old → (f.set old old c).get k = f.get k := by
        intro k hk
        rw [Forest.get_set, if_neg (Ne.symm hk)]
      obtain ⟨g, hrun', hentered⟩ := ihr hrest path l hl m' hopensr hdeep.2 (f.set old old c) (by
        intro k hk hkl
        rw [hset k (hother k hk)]
        exact hf k (by simp [hk]) hkl)
      refine ⟨g, hcmds ▸ hrun.append hrun', ?_, ?_⟩
      · intro k hk
        have hne : k ≠ old := by
          rintro rfl
          simp [hg] at hk
        rw [hentered.other k (hk.imp (fun h h' => h (by simp [h'])) id), hset k hne]
      · intro e he o c' hc'
        rcases List.mem_cons.mp he with rfl | he
        · rw [hg] at hc'
          cases hc'
          refine ⟨old, c, ?_, hiff⟩
          rw [hentered.other old (Or.inl hkey), Forest.get_set, if_pos rfl]
        · exact hentered.shared e he o c' hc'

/-- The commands of a comparison restore the scope, when its additions are sound. -/
theorem restores {opens : List Str → Bool} {path : List Str} {b l : Forest} (diff : ConfigDiff)
    (hb : b.Every (Plain u)) (hl : l.Every (Plain u)) (hopens : Opens opens path b l)
    (hsound : Scopes u (ScopeSound u) b l) : Restores u opens path b l (_cisco_diff u b l path diff).1 := by
  apply restores_scope diff hb hl hopens hsound
  apply runs_nested opens b hb path l hl ⟨diff, none⟩
  · intro e he old lc hlc
    have hin := hopens.inside ((Forest.get_eq_some b hb.nodup e.1 e.2.1 e.2.2).mpr he)
    simpa [hlc] using hin
  · exact hsound.2

end CiscoRestore
