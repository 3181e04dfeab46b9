import Ngcorion.Backup.CiscoConverge
import Mathlib.Data.List.TakeWhile

/-!
# Banners in the trees that `parse_cisco` builds

At the root stand lines filed under themselves and banners. A banner has one child with the text: no `^C` is in the text, its
lines end in `\n` only, and no line end is at its ends.
-/
namespace CiscoBanners

open Text ConfigTree CiscoIOS

/-- Only a text whose first six characters are `banner` in some case, before a blank, is `banner ` in lower case. -/
def LowersBanner (u : Unicode) : Prop :=
  ∀ s, startsWith (lit "banner ") (u.lower s) = true → ∃ a t, s = a ++ ' ' :: t ∧ a.map Char.toLower = lit "banner"

/-! ## Parts of a text -/

def NoBreak (s : Str) : Prop := ∀ c ∈ s, isLineBreak c = false

theorem noBreak_splitlinesFrom {line : Str} (hline : NoBreak line) (s : Str) : ∀ l ∈ splitlinesFrom line s, NoBreak l := by
  fun_induction splitlinesFrom line s with
  | case1 => simp
  | case2 line hne => simpa using hline
  | case3 line rest ih =>
    intro l hl
    rcases List.mem_cons.mp hl with rfl | hl
    · exact hline
    · exact ih (by simp [NoBreak]) l hl
  | case4 line c rest _ hc ih =>
    intro l hl
    rcases List.mem_cons.mp hl with rfl | hl
    · exact hline
    · exact ih (by simp [NoBreak]) l hl
  | case5 line c rest _ hc ih =>
    refine ih fun d hd => ?_
    rcases List.mem_append.mp hd with hd | hd
    · exact hline d hd
    · rw [List.mem_singleton.mp hd]
      simpa using hc

theorem noBreak_splitlines (s : Str) : ∀ l ∈ splitlines s, NoBreak l := noBreak_splitlinesFrom (by simp [NoBreak]) s

theorem rstrip_sublist (s : Str) : (rstrip s).Sublist s := List.IsPrefix.sublist ( rstrip_prefix s)

theorem strip_sublist (s : Str) : (strip s).Sublist s := (rstrip_sublist _).trans (List.dropWhile_sublist _)

theorem splitMax_sublist (n : Nat) (s : Str) : ∀ p ∈ splitMax n s, p.Sublist s := by
  have hleft (s : Str) : (lstrip s).Sublist s := List.dropWhile_sublist _
  induction n generalizing s with
  | zero =>
    intro p hp
    rw [splitMax_zero] at hp
    split at hp
    · simp at hp
    · rw [List.mem_singleton.mp hp]
      exact hleft s
  | succ n ih =>
    intro p hp
    rw [splitMax_succ] at hp
    split at hp
    · simp at hp
    · rcases List.mem_cons.mp hp with rfl | hp
      · exact (List.takeWhile_sublist _).trans (hleft s)
      · exact ((ih _ p hp).trans (List.dropWhile_sublist _)).trans (hleft s)

theorem NoBreak.sublist {s t : Str} (h : NoBreak t) (hs : s.Sublist t) : NoBreak s := fun c hc => h c (hs.subset hc)

theorem NoBreak.no_newline {s : Str} (h : NoBreak s) : '\n' ∉ s := fun hn => absurd (h '\n' hn) (by decide)

/-- Every part but the last has no blank in it. -/
theorem splitMax_no_blank (n i : Nat) (hi : i < n) (s : Str) : ∀ p, (splitMax n s)[i]? = some p → ∀ c ∈ p, isSpace c = false := by
  induction n generalizing i s with
  | zero => omega
  | succ n ih =>
    intro p hp
    rw [splitMax_succ] at hp
    split at hp
    · simp at hp
    · cases i with
      | zero =>
        rw [List.getElem?_cons_zero] at hp
        cases hp
        intro c hc
        simpa using List.mem_takeWhile_imp hc
      | succ i => exact ih i (by omega) _ p (by simpa using hp)

/-! ## Delimiters -/

/-- The mark `^C` does not occur. -/
def Unmarked (s : Str) : Prop := ¬ delim <:+: s

theorem unmarked_nil : Unmarked [] := by
  rw [Unmarked, List.infix_nil]
  simp [delim, lit]

theorem before_none {s : Str} (h : before delim s = none) : Unmarked s := by
  rintro ⟨p, t, rfl⟩
  induction p with
  | nil =>
    have hstart : startsWith delim (delim ++ t) = true := startsWith_append _ _
    have hcons : delim ++ t = '^' :: ('C' :: t) := by simp [delim, lit]
    rw [List.nil_append, hcons, before, if_pos (by rw [← hcons]; exact hstart)] at h
    simp at h
  | cons c p ih =>
    rw [List.cons_append, List.cons_append, before] at h
    split at h
    · simp at h
    · exact ih (by simpa using h)

theorem before_some {s text : Str} (h : before delim s = some text) : (∃ t, s = text ++ delim ++ t) ∧ Unmarked text := by
  induction s generalizing text with
  | nil => simp [before] at h
  | cons c s ih =>
    rw [before] at h
    split at h
    · rename_i hstart
      cases h
      obtain ⟨t, ht⟩ := (startsWith_iff _ _).mp hstart
      exact ⟨⟨t, by rw [ht, List.nil_append]⟩, unmarked_nil⟩
    · rename_i hstart
      obtain ⟨rest, hrest, rfl⟩ := Option.map_eq_some_iff.mp h
      obtain ⟨⟨t, rfl⟩, hun⟩ := ih hrest
      refine ⟨⟨t, by simp⟩, ?_⟩
      rintro ⟨p, t', hp⟩
      cases p with
      | nil =>
        apply hstart
        have hcons : c :: (rest ++ delim ++ t) = delim ++ (t' ++ (delim ++ t)) := by
          rw [List.append_assoc, ← List.cons_append, ← hp]
          simp
        rw [hcons]
        exact startsWith_append _ _
      | cons d p =>
        rw [List.cons_append, List.cons_append] at hp
        exact hun ⟨p, t', (List.cons.inj hp).2⟩

theorem before_of_unmarked {s : Str} (h : Unmarked s) : before delim s = none := by
  cases hb : before delim s with
  | none => rfl
  | some text =>
    obtain ⟨⟨t, rfl⟩, -⟩ := before_some hb
    exact absurd ⟨text, t, rfl⟩ h

theorem Unmarked.part {s t : Str} (h : Unmarked t) (hs : s <:+: t) : Unmarked s := fun hd => h (hd.trans hs)

/-- A line end stands between the two characters of no mark. -/
theorem Unmarked.append {s t : Str} (hs : Unmarked s) (ht : Unmarked t) : Unmarked (s ++ '\n' :: t) := by
  rintro ⟨p, q, h⟩
  rw [List.append_assoc, List.append_eq_append_iff] at h
  rcases h with ⟨m, rfl, hm⟩ | ⟨m, rfl, hm⟩
  · rcases m with _ | ⟨c, _ | ⟨d, m⟩⟩
    · simp [delim, lit] at hm
    · simp [delim, lit] at hm
    · have hd : c = '^' ∧ d = 'C' := by
        simp only [delim, lit, List.cons_append, List.cons.injEq] at hm
        exact ⟨hm.1.symm, hm.2.1.symm⟩
      rw [hd.1, hd.2] at hs
      exact hs ⟨p, m, by simp [delim, lit]⟩
  · cases m with
    | nil =>
      simp [delim, lit] at hm
    | cons c m =>
      rw [List.cons_append] at hm
      exact ht ⟨m, q, by rw [(List.cons.inj hm).2, List.append_assoc]⟩

theorem unmarked_unlines {ls : List Str} (h : ∀ l ∈ ls, Unmarked l) : Unmarked (unlines ls) := by
  induction ls with
  | nil => exact unmarked_nil
  | cons l ls ih =>
    have hl := h l (by simp)
    have hls := ih fun l' hl' => h l' (List.mem_cons_of_mem _ hl')
    cases ls with
    | nil => simpa [unlines] using hl
    | cons l' ls =>
      rw [unlines_cons_cons]
      exact hl.append hls

/-! ## Line ends at the ends -/

def notNewline (s : Str) : Prop := ∀ c ∈ s.head?, c ≠ '\n'

theorem dropNewlines_head (s : Str) : notNewline (s.dropWhile (· = '\n')) := by
  intro c hc
  have hhead := List.head?_dropWhile_not (p := fun c : Char => decide (c = '\n')) s
  rw [Option.mem_def] at hc
  rw [hc] at hhead
  simpa using hhead

theorem dropNewlines_of_head {s : Str} (h : notNewline s) : s.dropWhile (· = '\n') = s := by
  cases s with
  | nil => rfl
  | cons c s => simp [h c (by simp)]

theorem stripNewlines_part (s : Str) : stripNewlines s <:+: s := by
  have hpre : stripNewlines s <+: s.dropWhile (· = '\n') := by
    rw [stripNewlines, ← List.reverse_suffix, List.reverse_reverse]
    exact List.dropWhile_suffix _
  exact hpre.isInfix.trans (List.dropWhile_suffix _).isInfix

theorem stripNewlines_head (s : Str) : notNewline (stripNewlines s) := by
  have hpre : stripNewlines s <+: s.dropWhile (· = '\n') := by
    rw [stripNewlines, ← List.reverse_suffix, List.reverse_reverse]
    exact List.dropWhile_suffix _
  intro c hc
  obtain ⟨t, ht⟩ := hpre
  apply dropNewlines_head s
  rw [← ht, List.head?_append, Option.mem_def.mp hc]
  rfl

theorem stripNewlines_of_ends {s : Str} (hfirst : notNewline s) (hlast : notNewline s.reverse) : stripNewlines s = s := by
  rw [stripNewlines, dropNewlines_of_head hfirst, dropNewlines_of_head hlast, List.reverse_reverse]

theorem stripNewlines_idem (s : Str) : stripNewlines (stripNewlines s) = stripNewlines s := by
  refine stripNewlines_of_ends (stripNewlines_head s) ?_
  rw [stripNewlines, List.reverse_reverse]
  exact dropNewlines_head _

/-! ## The shape of a tree -/

/-- A line below the root or at it, filed under itself -/
def Plain (key line : Str) (_ : Forest) : Prop := line = key ∧ '\n' ∉ key

/-- What stands between `banner` and the text -/
structure Kind (u : Unicode) (kind : Str) : Prop where
  word : ∀ c ∈ kind, isSpace c = false
  some : LowersBanner u → kind ≠ []

structure BannerText (text : Str) : Prop where
  unmarked : Unmarked text
  breaks : ∀ c ∈ text, isLineBreak c = true → c = '\n'
  stripped : stripNewlines text = text

def bannerKey (kind : Str) : Str := lit "banner " ++ kind

/-- The children of a banner -/
def bannerNode (text : Str) : Forest := .cons textKey text .nil .nil

/-- What an entry of the root is -/
inductive Entry (u : Unicode) : Str → Str → Forest → Prop
  | line (line : Str) (children : Forest) (hbanner : isBanner line = false) (hline : '\n' ∉ line)
      (hchildren : children.Every Plain) : Entry u line line children
  | banner (kind text : Str) (hkind : Kind u kind) (htext : BannerText text) :
      Entry u (bannerKey kind) (bannerKey kind) (bannerNode text)

/-- The shape of a parsed tree -/
structure Shaped (u : Unicode) (f : Forest) : Prop where
  nodup : f.keys.Nodup
  entry : ∀ e ∈ f.entries, Entry u e.1 e.2.1 e.2.2

theorem isBanner_bannerKey (kind : Str) : isBanner (bannerKey kind) = true := startsWith_append _ _

theorem bannerKey_inj {kind kind' : Str} (h : bannerKey kind = bannerKey kind') : kind = kind' := List.append_cancel_left h

theorem bannerNode_inj {s t : Str} (h : bannerNode s = bannerNode t) : s = t := by
  rw [bannerNode, bannerNode] at h
  exact (Forest.cons.inj h).2.1

theorem Entry.key_eq {u : Unicode} {key line : Str} {c : Forest} (h : Entry u key line c) : key = line := by cases h <;> rfl

/-- An entry that is filed under a banner is one. -/
theorem Entry.of_banner {u : Unicode} {kind line : Str} {c : Forest} (h : Entry u (bannerKey kind) line c) :
    line = bannerKey kind ∧ Kind u kind ∧ ∃ text, c = bannerNode text ∧ BannerText text := by
  generalize hkey : bannerKey kind = key at h
  cases h with
  | line _ _ hnot _ _ =>
    rw [← hkey, isBanner_bannerKey] at hnot
    exact absurd hnot (by simp)
  | banner kind' text hkind htext =>
    obtain rfl := bannerKey_inj hkey
    exact ⟨rfl, hkind, text, rfl, htext⟩

section

variable {u : Unicode} {f : Forest}

theorem Shaped.set (h : Shaped u f) {key line : Str} {c : Forest} (hnew : Entry u key line c) : Shaped u (f.set key line c) := by
  refine ⟨Forest.nodup_set f key line c h.nodup, ?_⟩
  intro e he
  simp only [Forest.set, Forest.entries_ofEntries] at he
  rcases Dict.mem_set f.entries key (line, c) e he with he | he
  · subst he
    exact hnew
  · exact h.entry e he

theorem plain_child {line : Str} (hline : '\n' ∉ line) {g : Forest} (hg : g.Every Plain) : (g.child line line).Every Plain :=
  hg.child ⟨rfl, hline⟩

/-- A line is put below lines that are no banners. -/
theorem Shaped.changeAt_child (h : Shaped u f) {line : Str} (hbanner : isBanner line = false) (hline : '\n' ∉ line)
    (path : List Str) (hpath : ∀ key ∈ path, isBanner key = false) :
    Shaped u (f.changeAt (fun g => g.child line line) path) := by
  cases path with
  | nil =>
    rw [Forest.changeAt, Forest.child]
    split
    · exact h
    · exact h.set (.line line .nil hbanner hline trivial)
  | cons key path =>
    rw [Forest.changeAt]
    split
    · exact h
    · rename_i line' c hg
      have hentry := h.entry (key, line', c) (Dict.mem_of_get _ _ _ hg)
      cases hentry with
      | line _ _ hbanner' hline' hc =>
        exact h.set (.line key _ hbanner' hline' (hc.changeAt (fun _ _ _ _ hp => hp) (fun g hg => plain_child hline hg) path))
      | banner kind text _ _ =>
        have hkey := hpath (bannerKey kind) List.mem_cons_self
        rw [isBanner_bannerKey] at hkey
        exact absurd hkey (by simp)

/-! ## The parser -/

/-- The lines of a banner so far -/
def Texts (texts : List Str) : Prop := ∀ t ∈ texts, NoBreak t ∧ Unmarked t

theorem bannerText_of_texts {texts : List Str} (h : Texts texts) : BannerText (stripNewlines (unlines texts)) := by
  have hun : Unmarked (unlines texts) := unmarked_unlines fun t ht => (h t ht).2
  have hbreaks : ∀ c ∈ unlines texts, isLineBreak c = true → c = '\n' := by
    intro c hc hbreak
    induction texts with
    | nil => simp [unlines, List.intercalate] at hc
    | cons t texts ih =>
      have ht := (h t (by simp)).1
      have htexts : Texts texts := fun t' ht' => h t' (List.mem_cons_of_mem _ ht')
      cases texts with
      | nil =>
        have hmem : c ∈ t := by simpa [unlines, List.intercalate] using hc
        rw [ht c hmem] at hbreak
        exact absurd hbreak (by simp)
      | cons t' texts =>
        rw [unlines_cons_cons, List.mem_append, List.mem_cons] at hc
        rcases hc with hc | hc | hc
        · rw [ht c hc] at hbreak
          exact absurd hbreak (by simp)
        · exact hc
        · exact ih htexts (unmarked_unlines fun t ht => (htexts t ht).2) hc
  exact ⟨hun.part (stripNewlines_part _), fun c hc => hbreaks c ((stripNewlines_part _).subset hc), stripNewlines_idem _⟩

/-- The parser's state: a tree of the shape, no banner on the way to the open scope, and a banner that may be read -/
structure StateOk (u : Unicode) (s : ParseState) : Prop where
  root : Shaped u s.root
  stack : ∀ e ∈ s.stack, isBanner e.2 = false
  banner : ∀ b ∈ s.banner, ∃ kind, b.1 = bannerKey kind ∧ Kind u kind ∧ Texts b.2

theorem closeBanner_ok {root : Forest} (h : Shaped u root) {kind : Str} (hkind : Kind u kind) {texts : List Str}
    (htexts : Texts texts) : StateOk u (closeBanner root (bannerKey kind) texts) :=
  ⟨h.set (.banner kind _ hkind (bannerText_of_texts htexts)), by simp [closeBanner], by simp [closeBanner]⟩

theorem texts_concat {texts : List Str} (h : Texts texts) {t : Str} (hbreak : NoBreak t) (hun : Unmarked t) :
    Texts (texts ++ [t]) := by
  intro t' ht'
  rcases List.mem_append.mp ht' with ht' | ht'
  · exact h t' ht'
  · rw [List.mem_singleton.mp ht']
    exact ⟨hbreak, hun⟩

theorem noBreak_before {s text : Str} (hs : NoBreak s) (h : before delim s = some text) : NoBreak text := by
  obtain ⟨⟨t, rfl⟩, -⟩ := before_some h
  exact fun c hc => hs c (by simp [hc])

theorem toLower_of_isSpace {c : Char} (h : isSpace c = true) : c.toLower = c := by
  unfold Char.toLower
  split
  · rename_i hupper
    exfalso
    have h1 : 65 ≤ c.toNat := hupper.1
    have h2 : c.toNat ≤ 90 := hupper.2
    simp only [isSpace, Bool.or_eq_true, Bool.and_eq_true, decide_eq_true_eq] at h
    omega
  · rfl

theorem isSpace_of_banner {a : Str} (h : a.map Char.toLower = lit "banner") : ∀ c ∈ a, isSpace c = false := by
  intro c hc
  by_contra hspace
  rw [Bool.not_eq_false] at hspace
  have hmem : c ∈ lit "banner" := by
    rw [← h, ← toLower_of_isSpace hspace]
    exact List.mem_map_of_mem hc
  have hletters : ∀ d ∈ lit "banner", isSpace d = false := forall_mem_of_all (by with_unfolding_all decide)
  rw [hletters c hmem] at hspace
  exact absurd hspace (by simp)

theorem last_strip (s : Str) : ∀ c ∈ (strip s).reverse.head?, isSpace c = false := by
  rw [strip, rstrip, List.reverse_reverse]
  exact head_lstrip _

/-- The second word of a line that begins with `banner` -/
theorem kind_of_line {line : Str} (hlow : startsWith (lit "banner ") (u.lower (strip line)) = true) :
    Kind u ((splitMax 2 (strip line))[1]?.getD []) := by
  constructor
  · cases hpart : (splitMax 2 (strip line))[1]? with
    | none => simp
    | some kind => exact splitMax_no_blank 2 1 (by omega) _ kind hpart
  · intro hu
    obtain ⟨a, t, hline, hbanner⟩ := hu _ hlow
    have hword := isSpace_of_banner hbanner
    have hne : a ≠ [] := by
      rintro rfl
      simp [lit] at hbanner
    -- a stripped line has more behind its blank
    have ht : lstrip t ≠ [] := by
      intro hblank
      have hall : ∀ c ∈ t, isSpace c = true := by simpa [lstrip, List.dropWhile_eq_nil_iff] using hblank
      have hlast := last_strip line
      rw [hline] at hlast
      cases hrev : t.reverse with
      | nil =>
        have hspace := hlast ' ' (by simp [hrev])
        exact absurd hspace (by decide)
      | cons c r =>
        have hspace := hlast c (by simp [hrev])
        rw [hall c (List.mem_reverse.mp (by simp [hrev]))] at hspace
        exact absurd hspace (by simp)
    have hparts : (splitMax 2 (a ++ ' ' :: t))[1]? = some ((lstrip t).takeWhile fun c => !isSpace c) := by
      rw [splitMax_cons 1 hne hword, splitMax_succ, if_neg ht]
      rfl
    rw [hline, hparts, Option.getD_some]
    obtain ⟨c, r, hc⟩ := List.exists_cons_of_ne_nil ht
    have hhead := head_lstrip t c (by simp [hc])
    simp [hc, hhead]

theorem openBanner_ok {s : ParseState} (h : StateOk u s) {line : Str} (hline : NoBreak line)
    (hlow : startsWith (lit "banner ") (u.lower (strip line)) = true) : StateOk u (openBanner s (strip line)) := by
  have hkind := kind_of_line hlow
  have hbody : NoBreak ((splitMax 2 (strip line))[2]?.getD []) := by
    cases hpart : (splitMax 2 (strip line))[2]? with
    | none => simp [NoBreak]
    | some body => exact hline.sublist ((splitMax_sublist 2 _ body (List.mem_of_getElem? hpart)).trans (strip_sublist line))
  have hrest : NoBreak (if startsWith delim ((splitMax 2 (strip line))[2]?.getD []) then
      ((splitMax 2 (strip line))[2]?.getD []).drop delim.length else (splitMax 2 (strip line))[2]?.getD []) := by
    split
    · exact hbody.sublist (List.drop_sublist _ _)
    · exact hbody
  simp only [openBanner]
  split
  · rename_i text htext
    refine closeBanner_ok h.root hkind fun t ht => ?_
    rw [List.mem_singleton.mp ht]
    exact ⟨noBreak_before hrest htext, (before_some htext).2⟩
  · rename_i hnone
    refine ⟨h.root, h.stack, ?_⟩
    intro b hb
    cases hb
    refine ⟨_, rfl, hkind, fun t ht => ?_⟩
    rw [List.mem_singleton.mp ht]
    exact ⟨hrest, before_none hnone⟩

theorem parseStep_ok {s : ParseState} (h : StateOk u s) {line : Str} (hline : NoBreak line) : StateOk u (parseStep u s line) := by
  simp only [parseStep]
  split
  · next key texts hb =>
    obtain ⟨kind, hkey, hkind, htexts⟩ := h.banner (key, texts) (by simp [hb])
    dsimp only at hkey htexts
    subst hkey
    split
    · rename_i text htext
      exact closeBanner_ok h.root hkind (texts_concat htexts (noBreak_before hline htext) (before_some htext).2)
    · rename_i hnone
      refine ⟨h.root, h.stack, ?_⟩
      intro b hb'
      cases hb'
      exact ⟨kind, rfl, hkind, texts_concat htexts hline (before_none hnone)⟩
  · have hraw : NoBreak (rstrip line) := hline.sublist (rstrip_sublist line)
    by_cases hi : ignored u (strip (rstrip line)) = true
    · rwa [if_pos hi]
    rw [if_neg hi]
    by_cases hban : startsWith (lit "banner ") (u.lower (strip (rstrip line))) = true
    · rw [if_pos hban]
      exact openBanner_ok h hraw hban
    rw [if_neg hban]
    have hplain : isBanner (strip (rstrip line)) = false := CiscoConverge.isBanner_lower (by simpa using hban)
    have hstack : ∀ e ∈ s.stack.dropWhile (fun e => indentOf (rstrip line) ≤ e.1), isBanner e.2 = false :=
      fun e he => h.stack e ((List.dropWhile_suffix _).subset he)
    refine ⟨?_, ?_, by simp⟩
    · refine h.root.changeAt_child hplain (hraw.sublist (strip_sublist _)).no_newline _ fun key hk => ?_
      obtain ⟨e, he, rfl⟩ := List.mem_map.mp (List.mem_reverse.mp hk)
      exact hstack e he
    · intro e he
      rcases List.mem_cons.mp he with rfl | he
      · exact hplain
      · exact hstack e he

theorem parse_ok (ls : List Str) (hls : ∀ l ∈ ls, NoBreak l) {s : ParseState} (h : StateOk u s) :
    StateOk u (ls.foldl (parseStep u) s) := by
  induction ls generalizing s with
  | nil => exact h
  | cons line ls ih =>
    exact ih (fun l hl => hls l (List.mem_cons_of_mem _ hl)) (parseStep_ok h (hls line (by simp)))

theorem parse_shaped (u : Unicode) (text : Str) : Shaped u (parse_cisco u text) := by
  have hstart : StateOk u ⟨.nil, [], none⟩ := ⟨⟨by simp, by simp⟩, by simp, by simp⟩
  have hend := parse_ok (splitlines text) (noBreak_splitlines text) hstart
  simp only [parse_cisco, finish]
  split
  · next key texts hb =>
    obtain ⟨kind, hkey, hkind, htexts⟩ := hend.banner (key, texts) (by simp [hb])
    dsimp only at hkey htexts
    subst hkey
    exact (closeBanner_ok hend.root hkind htexts).root
  · exact hend.root

end

end CiscoBanners
