import Ngcorion.Backup.CiscoBanners

/-!
# Banners that are restored

A device reads the commands of a restore character by character. After `banner <kind> <d>` it takes every character for the banner
until `d` comes again, and it shows the banner between two marks `^C`. The text comes back as long as one of the five delimiters is
not in it.
-/
namespace BannerRestore

open Text ConfigTree CiscoIOS CiscoBanners

/-! ## The device -/

/-- What the device has done -/
inductive Event where
  | command (line : Str)
  | banner (kind text : Str)
  deriving DecidableEq

/-- A line so far, a banner so far, or the line that ended a banner -/
inductive Reading where
  | line (sofar : Str)
  | banner (kind : Str) (d : Char) (text : Str)
  | rest
  deriving DecidableEq

structure Device where
  log : List Event
  reading : Reading
  deriving DecidableEq

/-- `banner`, a kind, blanks and the delimiter -/
def bannerStart (line : Str) : Option (Str × Char) :=
  if startsWith (lit "banner ") line then
    let kind := (line.drop (lit "banner ").length).takeWhile (· ≠ ' ')
    match ((line.drop (lit "banner ").length).dropWhile (· ≠ ' ')).dropWhile (· = ' ') with
    | [d] => if kind = [] then none else some (kind, d)
    | _ => none
  else none

/-- The device does nothing on an empty line. -/
def Device.execute (dev : Device) (line : Str) : Device :=
  if strip line = [] then ⟨dev.log, .line []⟩ else ⟨dev.log ++ [Event.command line], .line []⟩

def Device.read (dev : Device) (c : Char) : Device :=
  match dev.reading with
  | .line sofar =>
    if c = '\n' then dev.execute sofar
    else
      match bannerStart (sofar ++ [c]) with
      | some (kind, d) => ⟨dev.log, .banner kind d []⟩
      | none => ⟨dev.log, .line (sofar ++ [c])⟩
  | .banner kind d text => if c = d then ⟨dev.log ++ [Event.banner kind text], .rest⟩ else ⟨dev.log, .banner kind d (text ++ [c])⟩
  | .rest => if c = '\n' then ⟨dev.log, .line []⟩ else dev

/-- Every command is sent with a line end. -/
def send (dev : Device) (commands : List Str) : Device := (commands.flatMap (· ++ ['\n'])).foldl Device.read dev

/-- A banner in the running configuration -/
def shown (kind text : Str) : Str := bannerKey kind ++ lit " ^C" ++ text ++ delim

/-- The parser after some text -/
def readFrom (u : Unicode) (s : ParseState) (text : Str) : ParseState := (splitlines text).foldl (parseStep u) s

/-- The commands of a banner make a device that reads commands take one banner and nothing else, and where that banner is shown the
parser has its text again and goes on at the root. -/
def Survives (u : Unicode) (kind T : Str) : Prop :=
  ∀ log, ∃ text, send ⟨log, .line []⟩ (_banner_commands (bannerKey kind) T) = ⟨log ++ [Event.banner kind text], .line []⟩ ∧
    ∀ before after, (readFrom u ⟨.nil, [], none⟩ before).banner = none →
      parse_cisco u (before ++ '\n' :: (shown kind text ++ '\n' :: after)) =
        finish (readFrom u
          ⟨(readFrom u ⟨.nil, [], none⟩ before).root.set (bannerKey kind) (bannerKey kind) (bannerNode T), [], none⟩ after)

/-! ## Reading the commands -/

theorem read_line {log : List Event} {sofar s : Str} (hs : '\n' ∉ s)
    (hstart : ∀ p, p ≠ [] → p <+: s → bannerStart (sofar ++ p) = none) :
    s.foldl Device.read ⟨log, .line sofar⟩ = ⟨log, .line (sofar ++ s)⟩ := by
  induction s generalizing sofar with
  | nil => simp
  | cons c s ih =>
    simp only [List.mem_cons, not_or] at hs
    have hfirst := hstart [c] (by simp) (by simp)
    have hread : Device.read ⟨log, .line sofar⟩ c = ⟨log, .line (sofar ++ [c])⟩ := by
      simp [Device.read, Ne.symm hs.1, hfirst]
    rw [List.foldl_cons, hread, ih hs.2]
    · simp
    · intro p hp hbegin
      rw [List.append_assoc]
      exact hstart (c :: p) (by simp) (List.cons_prefix_cons.mpr ⟨rfl, hbegin⟩)

theorem read_banner {log : List Event} {kind text s : Str} {d : Char} (hs : d ∉ s) :
    s.foldl Device.read ⟨log, .banner kind d text⟩ = ⟨log, .banner kind d (text ++ s)⟩ := by
  induction s generalizing text with
  | nil => simp
  | cons c s ih =>
    simp only [List.mem_cons, not_or] at hs
    have hread : Device.read ⟨log, .banner kind d text⟩ c = ⟨log, .banner kind d (text ++ [c])⟩ := by
      simp [Device.read, Ne.symm hs.1]
    rw [List.foldl_cons, hread, ih hs.2, List.append_assoc]
    rfl

theorem log_read (dev : Device) (c : Char) : dev.log <+: (dev.read c).log := by
  obtain ⟨log, reading⟩ := dev
  unfold Device.read Device.execute
  split <;> dsimp only <;> split <;> try split
  all_goals simp

/-- What was done stays done. -/
theorem log_reads (s : Str) (dev : Device) : dev.log <+: (s.foldl Device.read dev).log := by
  induction s generalizing dev with
  | nil => exact List.prefix_rfl
  | cons c s ih => exact (log_read dev c).trans (ih _)

section

variable {u : Unicode} {kind : Str} (hkind : Kind u kind) (hne : kind ≠ [])
include hkind

theorem no_blank : ∀ c ∈ kind, decide (c ≠ ' ') = true := by
  intro c hc
  rw [decide_eq_true_eq]
  rintro rfl
  exact absurd (hkind.word ' ' hc) (by decide)

/-- No delimiter is in the line yet. -/
theorem bannerStart_early {p : Str} (hp : p <+: bannerKey kind ++ [' ']) : bannerStart p = none := by
  unfold bannerStart
  split
  · rename_i hstart
    obtain ⟨r, rfl⟩ := (startsWith_iff _ _).mp hstart
    rw [bannerKey, List.append_assoc, List.prefix_append_right_inj] at hp
    have hblanks : (r.dropWhile (· ≠ ' ')).dropWhile (· = ' ') = [] := by
      rcases List.prefix_concat_iff.mp hp with rfl | hp
      · rw [List.dropWhile_append_of_pos (no_blank hkind)]
        simp
      · have hall : r.dropWhile (· ≠ ' ') = [] := by
          rw [List.dropWhile_eq_nil_iff]
          exact fun c hc => no_blank hkind c (hp.subset hc)
        rw [hall]
        rfl
    rw [List.drop_left, hblanks]
  · rfl

include hne

theorem bannerStart_delimiter {d : Char} (hd : d ≠ ' ') : bannerStart (bannerKey kind ++ [' ', d]) = some (kind, d) := by
  have hstart : startsWith (lit "banner ") (bannerKey kind ++ [' ', d]) = true := by
    rw [bannerKey, List.append_assoc]
    exact startsWith_append _ _
  have htake : (kind ++ [' ', d]).takeWhile (· ≠ ' ') = kind := by
    rw [List.takeWhile_append_of_pos (no_blank hkind)]
    simp
  have hdrop : ((kind ++ [' ', d]).dropWhile (· ≠ ' ')).dropWhile (· = ' ') = [d] := by
    rw [List.dropWhile_append_of_pos (no_blank hkind)]
    simp [hd]
  rw [bannerStart, if_pos hstart, bannerKey, List.append_assoc, List.drop_left, htake, hdrop]
  simp [hne]

/-- The first command opens a banner. -/
theorem read_start {log : List Event} {d : Char} (hd : isSpace d = false) :
    (bannerKey kind ++ [' ', d]).foldl Device.read ⟨log, .line []⟩ = ⟨log, .banner kind d []⟩ := by
  have hnewline : '\n' ∉ bannerKey kind ++ [' '] := by
    simp only [bannerKey, List.mem_append, not_or]
    refine ⟨⟨by with_unfolding_all decide, fun hn => ?_⟩, by decide⟩
    exact absurd (hkind.word '\n' hn) (by decide)
  have hline : (bannerKey kind ++ [' ']).foldl Device.read ⟨log, .line []⟩ = ⟨log, .line ([] ++ (bannerKey kind ++ [' ']))⟩ :=
    read_line hnewline fun p _ hp => bannerStart_early hkind hp
  have hd1 : d ≠ '\n' := by
    rintro rfl
    exact absurd hd (by decide)
  have hd2 : d ≠ ' ' := by
    rintro rfl
    exact absurd hd (by decide)
  have hsplit : bannerKey kind ++ [' ', d] = (bannerKey kind ++ [' ']) ++ [d] := by simp
  rw [hsplit, List.foldl_append, hline, List.foldl_cons, List.foldl_nil, List.nil_append, Device.read]
  simp only [if_neg hd1]
  rw [← hsplit, bannerStart_delimiter hkind hne hd2]

end

/-- The delimiter that is sent -/
def mark (T : Str) : Char := ((lit "^#%@~").find? (fun d => d ∉ T)).getD '^'

theorem mark_mem (T : Str) : mark T ∈ lit "^#%@~" := by
  unfold mark
  cases h : (lit "^#%@~").find? (fun d => d ∉ T) with
  | none =>
    rw [Option.getD_none]
    with_unfolding_all decide
  | some d => exact List.mem_of_find?_eq_some h

theorem mark_not_space (T : Str) : isSpace (mark T) = false := by
  have hall : ∀ d ∈ lit "^#%@~", isSpace d = false := forall_mem_of_all (by with_unfolding_all decide)
  exact hall _ (mark_mem T)

theorem mark_not_mem {T : Str} (h : ∃ d ∈ lit "^#%@~", d ∉ T) : mark T ∉ T := by
  unfold mark
  cases hfind : (lit "^#%@~").find? (fun d => d ∉ T) with
  | none =>
    obtain ⟨d, hd, hT⟩ := h
    have hnone := List.find?_eq_none.mp hfind d hd
    exact absurd (by simpa using hT) hnone
  | some d => simpa using List.find?_some hfind

theorem mark_none {T : Str} (h : ¬ ∃ d ∈ lit "^#%@~", d ∉ T) : mark T = '^' ∧ '^' ∈ T := by
  have hall : ∀ d ∈ lit "^#%@~", d ∈ T := by
    intro d hd
    by_contra hT
    exact h ⟨d, hd, hT⟩
  refine ⟨?_, hall '^' (by with_unfolding_all decide)⟩
  have hnone : (lit "^#%@~").find? (fun d => d ∉ T) = none := by
    rw [List.find?_eq_none]
    intro d hd
    simpa using hall d hd
  rw [mark, hnone, Option.getD_none]

/-- The characters that the commands of a banner send -/
theorem sent_chars (key T : Str) :
    (_banner_commands key T).flatMap (· ++ ['\n']) = (key ++ [' ', mark T]) ++ '\n' :: (T ++ '\n' :: mark T :: ['\n']) := by
  have hlines := unlines_newline (lines_ne_nil T)
  rw [unlines_lines] at hlines
  unfold _banner_commands
  rw [List.flatMap_cons, List.flatMap_append, ← hlines]
  simp [mark]

section

variable {u : Unicode} {kind : Str} (hkind : Kind u kind) (hne : kind ≠ [])
include hkind hne

/-- A delimiter that is not in the text: the device takes the text. -/
theorem send_taken {T : Str} (h : mark T ∉ T) (log : List Event) :
    send ⟨log, .line []⟩ (_banner_commands (bannerKey kind) T) =
      ⟨log ++ [Event.banner kind ('\n' :: (T ++ ['\n']))], .line []⟩ := by
  have hnewline : mark T ≠ '\n' := by
    intro heq
    have hspace := mark_not_space T
    rw [heq] at hspace
    exact absurd hspace (by decide)
  have htext : mark T ∉ '\n' :: (T ++ ['\n']) := by
    simp only [List.mem_cons, List.mem_append, List.not_mem_nil, or_false, not_or]
    exact ⟨hnewline, h, hnewline⟩
  have hchars : (_banner_commands (bannerKey kind) T).flatMap (· ++ ['\n']) =
      (bannerKey kind ++ [' ', mark T]) ++ ('\n' :: (T ++ ['\n'])) ++ [mark T, '\n'] := by
    rw [sent_chars]
    simp
  rw [send, hchars, List.foldl_append, List.foldl_append, read_start hkind hne (mark_not_space T), read_banner htext]
  simp [Device.read]

/-- The text has the delimiter: the device takes what stands before it. -/
theorem send_cut {p q : Str} (hp : '^' ∉ p) (hmark : mark (p ++ '^' :: q) = '^') (log : List Event) :
    log ++ [Event.banner kind ('\n' :: p)] <+: (send ⟨log, .line []⟩ (_banner_commands (bannerKey kind) (p ++ '^' :: q))).log := by
  have htext : '^' ∉ '\n' :: p := by
    simp only [List.mem_cons, not_or]
    exact ⟨by decide, hp⟩
  have hchars : (_banner_commands (bannerKey kind) (p ++ '^' :: q)).flatMap (· ++ ['\n']) =
      (bannerKey kind ++ [' ', '^']) ++ ('\n' :: p) ++ '^' :: (q ++ '\n' :: '^' :: ['\n']) := by
    rw [sent_chars, hmark]
    simp
  rw [send, hchars, List.foldl_append, List.foldl_append, read_start hkind hne (by decide), read_banner htext,
    List.foldl_cons]
  have hread : Device.read ⟨log, .banner kind '^' ([] ++ '\n' :: p)⟩ '^' = ⟨log ++ [Event.banner kind ('\n' :: p)], .rest⟩ := by
    simp [Device.read]
  rw [hread]
  exact log_reads _ ⟨log ++ [Event.banner kind ('\n' :: p)], .rest⟩

end

/-! ## Showing the banner -/

theorem readFrom_line (u : Unicode) (s : ParseState) {l : Str} (hl : NoBreak l) (rest : Str) :
    readFrom u s (l ++ '\n' :: rest) = readFrom u (parseStep u s l) rest := by
  rw [readFrom, splitlines_line hl, List.foldl_cons, readFrom]

/-- Up to an empty line, a line end parts a text. -/
theorem splitlinesFrom_newline (line s t : Str) :
    splitlinesFrom line (s ++ '\n' :: t) = splitlinesFrom line s ++ splitlines t ∨
      splitlinesFrom line (s ++ '\n' :: t) = splitlinesFrom line s ++ [] :: splitlines t := by
  have hbreak : isLineBreak '\n' = true := by decide
  fun_induction splitlinesFrom line s with
  | case1 =>
    refine .inr ?_
    simp [splitlinesFrom, hbreak, splitlines]
  | case2 line hne =>
    refine .inl ?_
    simp [splitlinesFrom, hbreak, splitlines]
  | case3 line rest ih =>
    rw [List.cons_append, List.cons_append, splitlinesFrom]
    simpa using ih
  | case4 line c rest hnot hc ih =>
    by_cases hr : c = '\r' ∧ rest = []
    · obtain ⟨rfl, rfl⟩ := hr
      refine .inl ?_
      simp [splitlinesFrom, splitlines]
    · rw [List.cons_append, splitlinesFrom, if_pos hc]
      · simpa using ih
      · intro t' hc' hrest
        cases rest with
        | nil => exact hr ⟨hc', rfl⟩
        | cons d rest =>
          rw [List.cons_append] at hrest
          obtain ⟨rfl, -⟩ := List.cons.inj hrest
          exact hnot rest hc' rfl
  | case5 line c rest hnot hc ih =>
    rw [List.cons_append, splitlinesFrom, if_neg hc]
    · exact ih
    · rintro t' rfl -
      exact hc (by decide)

theorem readFrom_newline (u : Unicode) (s : ParseState) (before rest : Str) (h : (readFrom u s before).banner = none) :
    readFrom u s (before ++ '\n' :: rest) = readFrom u (readFrom u s before) rest := by
  have hempty : parseStep u (readFrom u s before) [] = readFrom u s before := by
    have hignored : ignored u [] = true := by simp [ignored]
    have hstrip : strip (rstrip []) = [] := rfl
    rw [parseStep, h]
    simp only [hstrip, hignored, if_true]
  rcases splitlinesFrom_newline [] before rest with hlines | hlines
  · rw [readFrom, splitlines, hlines, List.foldl_append]
    rfl
  · rw [readFrom, splitlines, hlines, List.foldl_append, List.foldl_cons]
    exact congrArg (fun s => (splitlines rest).foldl (parseStep u) s) hempty

theorem before_delim {l : Str} (h : Unmarked l) : before delim (l ++ delim) = some l := by
  induction l with
  | nil => with_unfolding_all decide
  | cons c l ih =>
    have hl : Unmarked l := h.part (List.suffix_cons c l).isInfix
    rw [List.cons_append, before, if_neg, ih hl]
    · rfl
    · intro hstart
      obtain ⟨t, ht⟩ := (startsWith_iff _ _).mp hstart
      cases l with
      | nil => simp [delim, lit] at ht
      | cons d l =>
        simp only [delim, lit, List.cons_append, List.nil_append, List.cons.injEq] at ht
        obtain ⟨rfl, rfl, -⟩ := ht
        exact h ⟨[], l, by simp [delim, lit]⟩

/-- The lines of a banner that is open, up to the mark -/
theorem read_texts (u : Unicode) (root : Forest) (stack : List (Nat × Str)) (key : Str) (texts : List Str) (l : Str)
    (ls : List Str) (h : Texts (l :: ls)) (rest : Str) :
    readFrom u ⟨root, stack, some (key, texts)⟩ (unlines (l :: ls) ++ delim ++ '\n' :: rest) =
      readFrom u (closeBanner root key (texts ++ l :: ls)) rest := by
  induction ls generalizing texts l with
  | nil =>
    have hl := h l (by simp)
    have hbreak : NoBreak (l ++ delim) := by
      intro c hc
      rcases List.mem_append.mp hc with hc | hc
      · exact hl.1 c hc
      · have hdelim : ∀ c ∈ delim, isLineBreak c = false := forall_mem_of_all (by with_unfolding_all decide)
        exact hdelim c hc
    have hone : unlines [l] = l := by simp [unlines]
    rw [hone, readFrom_line u _ hbreak, parseStep]
    simp only [before_delim hl.2]
  | cons l' ls ih =>
    have hl := h l (by simp)
    have hjoin : unlines (l :: l' :: ls) ++ delim ++ '\n' :: rest =
        l ++ '\n' :: (unlines (l' :: ls) ++ delim ++ '\n' :: rest) := by
      rw [unlines_cons_cons]
      simp
    have hstep : parseStep u ⟨root, stack, some (key, texts)⟩ l = ⟨root, stack, some (key, texts ++ [l])⟩ := by
      rw [parseStep]
      simp only [before_of_unmarked hl.2]
    rw [hjoin, readFrom_line u _ hl.1, hstep, ih _ _ fun t ht => h t (List.mem_cons_of_mem _ ht), List.append_assoc]
    rfl

section

variable {u : Unicode} {kind : Str} (hkind : Kind u kind) (hne : kind ≠ []) (hblank : u.word ' ' = false)

include hkind in
theorem noBreak_of_word : NoBreak kind := by
  intro c hc
  have hspace := hkind.word c hc
  by_contra hbreak
  simp only [isLineBreak, Bool.not_eq_false, Bool.or_eq_true, Bool.and_eq_true, decide_eq_true_eq] at hbreak
  simp only [isSpace, Bool.or_eq_false_iff, Bool.and_eq_false_iff, decide_eq_false_iff_not] at hspace
  omega

/-- The line that opens a banner in a running configuration -/
def openingLine (kind : Str) : Str := bannerKey kind ++ lit " ^C"

theorem openingLine_eq (kind : Str) : openingLine kind = lit "banner" ++ ' ' :: (kind ++ ' ' :: delim) := by
  simp [openingLine, bannerKey, delim, lit]

theorem strip_openingLine (kind : Str) : rstrip (openingLine kind) = openingLine kind ∧ strip (openingLine kind) = openingLine kind := by
  have hlast : ∀ c ∈ (openingLine kind).reverse.head?, isSpace c = false := by
    rw [openingLine, List.reverse_append]
    simp [lit, isSpace]
  have hfirst : ∀ c ∈ (openingLine kind).head?, isSpace c = false := by
    rw [openingLine_eq]
    simp [lit, isSpace]
  refine ⟨?_, strip_of_ends hfirst hlast⟩
  rw [rstrip, ← lstrip, lstrip_of_head hlast, List.reverse_reverse]

theorem lower_openingLine (u : Unicode) (kind : Str) : startsWith (lit "banner ") (u.lower (openingLine kind)) = true := by
  have hlow := u.lower_ascii (lit "banner ") (kind ++ lit " ^C") (forall_mem_of_all (by with_unfolding_all decide))
  have heq : (lit "banner ").map Char.toLower = lit "banner " := by with_unfolding_all decide
  rw [heq] at hlow
  rwa [openingLine, bannerKey, List.append_assoc]

include hblank in
theorem not_prompt : isPrompt u (openingLine kind) = false := by
  have hname : ∃ c t, (openingLine kind).dropWhile (fun c => u.word c || c = '.' || c = '-') = c :: t ∧ c ∈ lit "banner " := by
    rw [openingLine_eq, List.dropWhile_append]
    cases hfirst : (lit "banner").dropWhile (fun c => u.word c || c = '.' || c = '-') with
    | nil => exact ⟨' ', kind ++ ' ' :: delim, by simp [hblank], by with_unfolding_all decide⟩
    | cons c t =>
      have hmem : c ∈ lit "banner" := (List.dropWhile_suffix _).subset (hfirst ▸ List.mem_cons_self)
      have hsub : ∀ c ∈ lit "banner", c ∈ lit "banner " := forall_mem_of_all (by with_unfolding_all decide)
      exact ⟨c, _, rfl, hsub c hmem⟩
  obtain ⟨c, t, hrest, hc⟩ := hname
  have hplain : ∀ c ∈ lit "banner ", c ≠ '(' ∧ c ≠ '#' ∧ c ≠ '>' := forall_mem_of_all
    (by with_unfolding_all decide)
  obtain ⟨h1, h2, h3⟩ := hplain c hc
  have htail : promptTail (c :: t) = false := by simp [promptTail, h2, h3]
  simp only [isPrompt, hrest]
  split
  · rename_i heq
    exact absurd (List.cons.inj heq).1 h1
  · rw [htail, Bool.and_false]

include hblank in
theorem not_ignored : ignored u (openingLine kind) = false := by
  obtain ⟨low, hlow⟩ := (startsWith_iff _ _).mp (lower_openingLine u kind)
  have hprompt : isPrompt u (openingLine kind) = false := not_prompt hblank
  have hskip : skipPrefixes.any (fun p => startsWith p (lit "banner " ++ low)) = false := by
    simp [skipPrefixes, startsWith, lit, List.isPrefixOf]
  have hend : lit "banner " ++ low ≠ lit "end" := by simp [lit]
  have hshow : startsWith (lit "show running-config") (lit "banner " ++ low) = false := by simp [startsWith, lit, List.isPrefixOf]
  have hmark : startsWith (lit "!") (openingLine kind) = false := by
    rw [openingLine_eq]
    simp [startsWith, lit, List.isPrefixOf]
  have hempty : openingLine kind ≠ [] := by
    rw [openingLine_eq]
    simp [lit]
  simp only [ignored, hlow, hskip, hshow, hprompt, hmark, decide_eq_false hempty, decide_eq_false hend, Bool.or_self]

include hkind hne in
theorem splitMax_openingLine : splitMax 2 (openingLine kind) = [lit "banner", kind, delim] := by
  have hbanner : ∀ c ∈ lit "banner", isSpace c = false := forall_mem_of_all (by with_unfolding_all decide)
  have hdelim : splitMax 0 delim = [delim] := by with_unfolding_all decide
  rw [openingLine_eq, splitMax_cons 1 (by simp [lit]) hbanner, splitMax_cons 0 hne hkind.word, hdelim]

include hkind hne hblank in
theorem parseStep_openingLine {s : ParseState} (hs : s.banner = none) :
    parseStep u s (openingLine kind) = { s with banner := some (bannerKey kind, [[]]) } := by
  have hparts := splitMax_openingLine hkind hne
  rw [parseStep, hs]
  simp only [(strip_openingLine kind).1, (strip_openingLine kind).2, not_ignored hblank, lower_openingLine u kind, if_true,
    Bool.false_eq_true, if_false]
  have hstart : startsWith delim delim = true := by with_unfolding_all decide
  have hdrop : delim.drop delim.length = [] := List.drop_length
  have hbefore : before delim [] = none := rfl
  simp only [openBanner, hparts, List.getElem?_cons_succ, List.getElem?_cons_zero, Option.getD_some, hstart, if_true, hdrop,
    hbefore, bannerKey]

include hkind hne hblank in
/-- A banner that is shown is read under its key, and what follows is read at the root. -/
theorem read_shown {s : ParseState} (hs : s.banner = none) {w : Str} (hw : Texts (lines w)) (after : Str) :
    readFrom u s (shown kind ('\n' :: w) ++ '\n' :: after) =
      readFrom u ⟨s.root.set (bannerKey kind) (bannerKey kind) (bannerNode (stripNewlines ('\n' :: w))), [], none⟩ after := by
  have hopening : NoBreak (openingLine kind) := by
    have hkey : ∀ c ∈ lit "banner ", isLineBreak c = false := forall_mem_of_all (by with_unfolding_all decide)
    have hend : ∀ c ∈ lit " ^C", isLineBreak c = false := forall_mem_of_all (by with_unfolding_all decide)
    intro c hc
    rw [openingLine, bannerKey, List.mem_append, List.mem_append] at hc
    rcases hc with (hc | hc) | hc
    · exact hkey c hc
    · exact noBreak_of_word hkind c hc
    · exact hend c hc
  obtain ⟨l, ls, hlines⟩ := List.exists_cons_of_ne_nil (lines_ne_nil w)
  have htext : shown kind ('\n' :: w) ++ '\n' :: after =
      openingLine kind ++ '\n' :: (unlines (l :: ls) ++ delim ++ '\n' :: after) := by
    rw [← hlines, unlines_lines, shown, openingLine]
    simp
  rw [htext, readFrom_line u _ hopening, parseStep_openingLine hkind hne hblank hs, read_texts u _ _ _ _ l ls (hlines ▸ hw)]
  have hjoin : unlines ([[]] ++ l :: ls) = '\n' :: w := by
    rw [List.singleton_append, unlines_cons_cons, ← hlines, unlines_lines, List.nil_append]
  rw [closeBanner, hjoin]
  rfl

end

/-! ## Banners that come back -/

theorem part_unlines {l : Str} {ls : List Str} (h : l ∈ ls) : l <:+: unlines ls := by
  induction ls with
  | nil => simp at h
  | cons l' ls ih =>
    cases ls with
    | nil => simpa [unlines] using List.mem_singleton.mp h ▸ List.infix_refl l
    | cons l'' ls =>
      rw [unlines_cons_cons]
      rcases List.mem_cons.mp h with rfl | h
      · exact (List.prefix_append _ _).isInfix
      · exact (ih h).trans ((List.suffix_cons _ _).trans (List.suffix_append _ _)).isInfix

theorem no_newline_of_mem_lines {l s : Str} (h : l ∈ lines s) : '\n' ∉ l := by
  induction s generalizing l with
  | nil =>
    rw [lines_nil, List.mem_singleton] at h
    simp [h]
  | cons c s ih =>
    rw [lines_cons] at h
    split at h
    · rcases List.mem_cons.mp h with rfl | h
      · simp
      · exact ih h
    · rename_i hc
      obtain ⟨first, rest, hlines⟩ := List.exists_cons_of_ne_nil (lines_ne_nil s)
      rw [hlines, List.modifyHead_cons] at h
      rcases List.mem_cons.mp h with rfl | h
      · simp only [List.mem_cons, not_or]
        exact ⟨Ne.symm hc, ih (by simp [hlines])⟩
      · exact ih (by simp [hlines, h])

theorem texts_lines {w : Str} (hun : Unmarked w) (hbreaks : ∀ c ∈ w, isLineBreak c = true → c = '\n') : Texts (lines w) := by
  intro l hl
  have hpart : l <:+: w := by
    have hjoin := part_unlines hl
    rwa [unlines_lines] at hjoin
  refine ⟨fun c hc => ?_, hun.part hpart⟩
  by_contra hbreak
  obtain rfl := hbreaks c (hpart.subset hc) (by simpa using hbreak)
  exact no_newline_of_mem_lines hl hc

theorem stripNewlines_around {T : Str} (h : stripNewlines T = T) : stripNewlines ('\n' :: (T ++ ['\n'])) = T := by
  have hfirst : notNewline T := h ▸ stripNewlines_head T
  have hlast : notNewline T.reverse := by
    rw [← h, stripNewlines, List.reverse_reverse]
    exact dropNewlines_head _
  cases T with
  | nil => rfl
  | cons c T =>
    have hc : c ≠ '\n' := hfirst c (by simp)
    have hdrop : ('\n' :: (c :: T ++ ['\n'])).dropWhile (· = '\n') = c :: T ++ ['\n'] := by simp [hc]
    have hback : (c :: T ++ ['\n']).reverse.dropWhile (· = '\n') = (c :: T).reverse := by
      have hrev : (c :: T ++ ['\n']).reverse = '\n' :: (c :: T).reverse := by simp
      rw [hrev, List.dropWhile_cons_of_pos (by simp), dropNewlines_of_head hlast]
    rw [stripNewlines, hdrop, hback, List.reverse_reverse]

/-- A banner that was read is restored if and only if one of the five delimiters is not in its text. -/
theorem survives_iff (u : Unicode) (hu : LowersBanner u) (hblank : u.word ' ' = false) {config kind line : Str}
    {children : Forest} (h : (parse_cisco u config).get (bannerKey kind) = some (line, children)) :
    Survives u kind (bannerText children) ↔ ∃ d ∈ lit "^#%@~", d ∉ bannerText children := by
  have hentry := (parse_shaped u config).entry (bannerKey kind, line, children) (Dict.mem_of_get _ _ _ h)
  obtain ⟨-, hkind, T, rfl, hT⟩ := hentry.of_banner
  have htext : bannerText (bannerNode T) = T := by
    rw [bannerText, bannerNode, Forest.get_cons, if_pos rfl]
    rfl
  have hne := hkind.some hu
  rw [htext]
  constructor
  · intro hsurvives
    by_contra hnone
    obtain ⟨hmark, hmem⟩ := mark_none hnone
    obtain ⟨p, q, rfl, hp⟩ := List.eq_append_cons_of_mem hmem
    obtain ⟨text, hsend, hshown⟩ := hsurvives []
    have hcut := send_cut hkind hne hp hmark []
    -- the one banner that the device took is what stands before the first delimiter
    obtain rfl : text = '\n' :: p := by
      obtain ⟨t, ht⟩ := hcut
      rw [hsend] at ht
      simp only [List.nil_append, List.singleton_append, List.cons.injEq, Event.banner.injEq, true_and] at ht
      exact ht.1.symm
    have hbegin : p <:+: p ++ '^' :: q := (List.prefix_append _ _).isInfix
    have hp' : Texts (lines p) :=
      texts_lines (hT.unmarked.part hbegin) fun c hc => hT.breaks c (hbegin.subset hc)
    have hparse := hshown [] [] rfl
    have hread := read_shown hkind hne hblank (s := ⟨.nil, [], none⟩) rfl hp' []
    rw [parse_cisco, ← readFrom, readFrom_newline u _ [] _ rfl] at hparse
    have hstart : readFrom u ⟨.nil, [], none⟩ [] = ⟨.nil, [], none⟩ := rfl
    rw [hstart, hread] at hparse
    have hend : ∀ s, readFrom u s [] = s := fun _ => rfl
    rw [hend, hend] at hparse
    have htexts : p ++ '^' :: q = stripNewlines ('\n' :: p) := by
      have hget := congrArg (fun f => f.get (bannerKey kind)) hparse
      simp only [finish, Forest.get_set, if_true, Option.some.injEq, Prod.mk.injEq, true_and] at hget
      exact (bannerNode_inj hget).symm
    have hin : '^' ∈ '\n' :: p := (stripNewlines_part _).subset (htexts ▸ hmem)
    simp only [List.mem_cons] at hin
    exact hp (hin.resolve_left (by decide))
  · intro hd log
    refine ⟨_, send_taken hkind hne (mark_not_mem hd) log, ?_⟩
    intro before after hbefore
    have hT' : Texts (lines (T ++ ['\n'])) := by
      refine texts_lines (hT.unmarked.append unmarked_nil) fun c hc hbreak => ?_
      rcases List.mem_append.mp hc with hc | hc
      · exact hT.breaks c hc hbreak
      · exact List.mem_singleton.mp hc
    rw [parse_cisco, ← readFrom, readFrom_newline u _ before _ hbefore,
      read_shown hkind hne hblank hbefore hT', stripNewlines_around hT.stripped]

theorem toLower_eq_blank {c : Char} (h : c.toLower = ' ') : c = ' ' := by
  unfold Char.toLower at h
  split at h
  · rename_i hupper
    exfalso
    have h1 : 65 ≤ c.toNat := hupper.1
    have h2 : c.toNat ≤ 90 := hupper.2
    have hval := congrArg (fun d : Char => d.val.toNat) h
    simp only [UInt32.toNat_add] at hval
    simp at hval
    omega
  · exact h

theorem lowersBanner_ascii : LowersBanner ascii := by
  intro s h
  obtain ⟨r, hr⟩ := (startsWith_iff _ _).mp h
  have hsplit : lit "banner " ++ r = lit "banner" ++ ' ' :: r := by simp [lit]
  change s.map Char.toLower = _ at hr
  rw [hsplit, List.map_eq_append_iff] at hr
  obtain ⟨a, t, rfl, ha, ht⟩ := hr
  obtain ⟨c, t, rfl, hc, -⟩ := List.map_eq_cons_iff.mp ht
  exact ⟨a, t, by rw [toLower_eq_blank hc], ha⟩

/-- A banner of one word -/
def greeting : Str := lit "banner motd ^Chello^C\n"

theorem greeting_survives_iff : ∃ children, (parse_cisco ascii greeting).get (bannerKey (lit "motd")) =
    some (bannerKey (lit "motd"), children) ∧
      (Survives ascii (lit "motd") (bannerText children) ↔ ∃ d ∈ lit "^#%@~", d ∉ bannerText children) := by
  have hget : (parse_cisco ascii greeting).get (bannerKey (lit "motd")) =
      some (bannerKey (lit "motd"), bannerNode (lit "hello")) := by with_unfolding_all decide
  exact ⟨_, hget, survives_iff ascii lowersBanner_ascii (by with_unfolding_all decide) hget⟩

/-- A banner that has all five delimiters, and a line after them -/
def fiveMarks : Str := lit "banner motd ^C#%@~^\nhostname R2^C\n"

/-- The rest of the banner is executed. -/
theorem banner_line_executed : ∃ children, (parse_cisco ascii fiveMarks).get (bannerKey (lit "motd")) =
    some (bannerKey (lit "motd"), children) ∧
      send ⟨[], .line []⟩ (_banner_commands (bannerKey (lit "motd")) (bannerText children)) =
        ⟨[.banner (lit "motd") (lit "\n#%@~"), .command (lit "hostname R2"), .command (lit "^")], .line []⟩ ∧
      ¬ Survives ascii (lit "motd") (bannerText children) := by
  have hget : (parse_cisco ascii fiveMarks).get (bannerKey (lit "motd")) =
      some (bannerKey (lit "motd"), bannerNode (lit "#%@~^\nhostname R2")) := by with_unfolding_all decide
  have hsend : send ⟨[], .line []⟩ (_banner_commands (bannerKey (lit "motd")) (bannerText (bannerNode (lit "#%@~^\nhostname R2")))) =
      ⟨[.banner (lit "motd") (lit "\n#%@~"), .command (lit "hostname R2"), .command (lit "^")], .line []⟩ := by
        with_unfolding_all decide
  refine ⟨_, hget, hsend, fun hsurvives => ?_⟩
  obtain ⟨text, htaken, -⟩ := hsurvives []
  rw [hsend] at htaken
  simp at htaken

end BannerRestore
