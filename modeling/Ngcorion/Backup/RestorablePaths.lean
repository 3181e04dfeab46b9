import Ngcorion.Backup.BundleRevert

/-!
# Paths that a restore may write

A backup lists the files that the shell finds for the patterns of a family; a restore may write the paths that `fnmatch` matches
with the same patterns. The star of `fnmatch` also matches slashes and a leading dot.
-/
namespace RestorablePaths

open Text FileBundle BundleRevert

/-! ## The patterns of the shell -/

/-- A component of a path: a star does not match a leading dot. -/
def globComponent (pattern comp : Str) : Bool :=
  (comp.head? ≠ some '.' || pattern.head? = some '.') && fnmatchcase pattern comp

def globComponents : List Str → List Str → Bool
  | [], [] => true
  | p :: ps, c :: cs => globComponent p c && globComponents ps cs
  | _, _ => false

theorem globComponents_cons (p c : Str) (ps cs : List Str) :
    globComponents (p :: ps) (c :: cs) = (globComponent p c && globComponents ps cs) := rfl

/-- What the shell lists for a pattern; a star does not match a slash. -/
def glob (pattern path : Str) : Bool := globComponents (pattern.splitOn '/') (path.splitOn '/')

/-- A path that the backup command of a family could list -/
def Listed (family : Family) (path : Str) : Prop :=
  (∃ pattern ∈ family_paths family, glob pattern path = true) ∧ ∀ comp ∈ path.splitOn '/', comp ≠ lit "." ∧ comp ≠ lit ".."

/-- A path from the root as `normpath` writes it, on one line -/
def Plain (path : Str) : Prop := startsWith ['/'] path = true ∧ normpath path = path ∧ '\n' ∉ path

/-- What a plain path has between the folder and the end of a pattern with a star: no slash, and no leading dot. -/
def Flat (family : Family) (path : Str) : Prop :=
  Plain path → ∀ folder suffix, folder ++ '*' :: suffix ∈ family_paths family → ∀ name, path = folder ++ (name ++ suffix) →
    '/' ∉ name ++ suffix ∧ (name ++ suffix).head? ≠ some '.'

/-! ## `fnmatch` -/

theorem fnmatch_cons {p : Char} (hp : p ≠ '*') (pattern s : Str) :
    fnmatchcase (p :: pattern) s = true ↔ ∃ t, s = p :: t ∧ fnmatchcase pattern t = true := by
  cases s with
  | nil => simp [fnmatchcase]
  | cons c s =>
    have hstep : fnmatchcase (p :: pattern) (c :: s) = (decide (p = c) && fnmatchcase pattern s) := by
      rw [fnmatchcase]
      exact hp
    rw [hstep, Bool.and_eq_true, decide_eq_true_eq]
    constructor
    · rintro ⟨rfl, h⟩
      exact ⟨s, rfl, h⟩
    · rintro ⟨t, ht, h⟩
      cases ht
      exact ⟨rfl, h⟩

theorem fnmatch_literal {d : Str} (hd : '*' ∉ d) (pattern s : Str) :
    fnmatchcase (d ++ pattern) s = true ↔ ∃ t, s = d ++ t ∧ fnmatchcase pattern t = true := by
  induction d generalizing s with
  | nil => simp
  | cons p d ih =>
    rw [List.mem_cons, not_or] at hd
    rw [List.cons_append, fnmatch_cons (Ne.symm hd.1)]
    constructor
    · rintro ⟨t, rfl, h⟩
      obtain ⟨u, rfl, hu⟩ := (ih hd.2 t).mp h
      exact ⟨u, rfl, hu⟩
    · rintro ⟨u, rfl, hu⟩
      exact ⟨d ++ u, rfl, (ih hd.2 _).mpr ⟨u, rfl, hu⟩⟩

theorem fnmatch_self {s : Str} (hs : '*' ∉ s) (x : Str) : fnmatchcase s x = true ↔ x = s := by
  have h := fnmatch_literal hs [] x
  rw [List.append_nil] at h
  rw [h]
  constructor
  · rintro ⟨t, rfl, ht⟩
    have : t = [] := by simpa [fnmatchcase] using ht
    rw [this, List.append_nil]
  · rintro rfl
    exact ⟨[], (List.append_nil _).symm, by simp [fnmatchcase]⟩

theorem fnmatch_star {s : Str} (hs : '*' ∉ s) (x : Str) : fnmatchcase ('*' :: s) x = true ↔ ∃ name, x = name ++ s := by
  induction x with
  | nil =>
    rw [fnmatchcase, fnmatch_self hs]
    simp
  | cons c x ih =>
    rw [fnmatchcase, Bool.or_eq_true, fnmatch_self hs, ih]
    constructor
    · rintro (h | ⟨name, rfl⟩)
      · exact ⟨[], h⟩
      · exact ⟨c :: name, rfl⟩
    · rintro ⟨name, h⟩
      cases name with
      | nil => exact .inl h
      | cons d name =>
        cases h
        exact .inr ⟨name, rfl⟩

theorem fnmatch_starred {folder suffix : Str} (hf : '*' ∉ folder) (hs : '*' ∉ suffix) (path : Str) :
    fnmatchcase (folder ++ '*' :: suffix) path = true ↔ ∃ name, path = folder ++ (name ++ suffix) := by
  rw [fnmatch_literal hf]
  constructor
  · rintro ⟨t, rfl, h⟩
    obtain ⟨name, rfl⟩ := (fnmatch_star hs t).mp h
    exact ⟨name, rfl⟩
  · rintro ⟨name, rfl⟩
    exact ⟨name ++ suffix, rfl, (fnmatch_star hs _).mpr ⟨name, rfl⟩⟩

theorem globComponent_star {suffix : Str} (hs : '*' ∉ suffix) (comp : Str) :
    globComponent ('*' :: suffix) comp = true ↔ comp.head? ≠ some '.' ∧ ∃ name, comp = name ++ suffix := by
  rw [globComponent, Bool.and_eq_true, fnmatch_star hs]
  simp

/-! ## Components -/

theorem splitOn_slash (s t : Str) : (s ++ '/' :: t).splitOn '/' = s.splitOn '/' ++ t.splitOn '/' :=
  List.splitOnP_append_cons s t (by simp)

theorem component_chars {s comp : Str} (h : comp ∈ s.splitOn '/') : '/' ∉ comp ∧ ∀ c ∈ comp, c ∈ s := by
  induction s generalizing comp with
  | nil =>
    have : comp = [] := by simpa using h
    simp [this]
  | cons d s ih =>
    rw [List.splitOn_cons_eq_if_modifyHead] at h
    split at h
    · rcases List.mem_cons.mp h with rfl | h
      · simp
      · exact ⟨(ih h).1, fun c hc => List.mem_cons_of_mem _ ((ih h).2 c hc)⟩
    · rename_i hd
      obtain ⟨first, rest, hs⟩ := List.exists_cons_of_ne_nil (List.splitOn_ne_nil '/' s)
      rw [hs] at h ih
      rcases List.mem_cons.mp h with rfl | h
      · have := ih List.mem_cons_self
        refine ⟨?_, ?_⟩
        · rw [List.mem_cons, not_or]
          exact ⟨fun he => hd (by simp [← he]), this.1⟩
        · intro c hc
          rcases List.mem_cons.mp hc with rfl | hc
          · exact List.mem_cons_self
          · exact List.mem_cons_of_mem _ (this.2 c hc)
      · have := ih (List.mem_cons_of_mem _ h)
        exact ⟨this.1, fun c hc => List.mem_cons_of_mem _ (this.2 c hc)⟩

theorem splitOn_injective {s t : Str} (h : s.splitOn '/' = t.splitOn '/') : s = t := by
  have := congrArg (['/'].intercalate ·) h
  simpa only [List.intercalate_splitOn] using this

/-- Components without a star are those of the path. -/
theorem components_plain {ps cs : List Str} (hstar : ∀ p ∈ ps, '*' ∉ p) (h : globComponents ps cs = true) : cs = ps := by
  induction ps generalizing cs with
  | nil =>
    cases cs with
    | nil => rfl
    | cons c cs => cases h
  | cons p ps ih =>
    cases cs with
    | nil => cases h
    | cons c cs =>
      rw [globComponents_cons, Bool.and_eq_true, globComponent, Bool.and_eq_true] at h
      rw [(fnmatch_self (hstar p List.mem_cons_self) c).mp h.1.2, ih (fun q hq => hstar q (List.mem_cons_of_mem _ hq)) h.2]

theorem components_self {ps : List Str} (hstar : ∀ p ∈ ps, '*' ∉ p) : globComponents ps ps = true := by
  induction ps with
  | nil => rfl
  | cons p ps ih =>
    have hp : fnmatchcase p p = true := (fnmatch_self (hstar p List.mem_cons_self) p).mpr rfl
    rw [globComponents_cons, globComponent, hp, ih (fun q hq => hstar q (List.mem_cons_of_mem _ hq))]
    by_cases h : p.head? = some '.' <;> simp [h]

theorem components_one {p : Str} {cs : List Str} (h : globComponents [p] cs = true) :
    ∃ c, cs = [c] ∧ globComponent p c = true := by
  match cs with
  | [] => cases h
  | [c] =>
    rw [globComponents_cons, Bool.and_eq_true] at h
    exact ⟨c, rfl, h.1⟩
  | c :: d :: cs =>
    rw [globComponents_cons, Bool.and_eq_true] at h
    cases h.2

theorem components_append {as bs cs : List Str} (hstar : ∀ p ∈ as, '*' ∉ p) :
    globComponents (as ++ bs) cs = true ↔ ∃ ds, cs = as ++ ds ∧ globComponents bs ds = true := by
  induction as generalizing cs with
  | nil => simp
  | cons p as ih =>
    have htail : ∀ q ∈ as, '*' ∉ q := fun q hq => hstar q (List.mem_cons_of_mem _ hq)
    cases cs with
    | nil =>
      constructor
      · intro h
        cases h
      · rintro ⟨_, he, _⟩
        cases he
    | cons c cs =>
      rw [List.cons_append, globComponents_cons, Bool.and_eq_true, ih htail]
      constructor
      · rintro ⟨hc, ds, rfl, h⟩
        rw [globComponent, Bool.and_eq_true] at hc
        rw [(fnmatch_self (hstar p List.mem_cons_self) c).mp hc.2]
        exact ⟨ds, rfl, h⟩
      · rintro ⟨ds, he, h⟩
        cases he
        have hp : globComponents [p] [p] = true := components_self (by simpa using hstar p List.mem_cons_self)
        rw [globComponents_cons, Bool.and_eq_true] at hp
        exact ⟨hp.1, ds, rfl, h⟩

/-! ## The lists -/

def folderOf (pattern : Str) : Str := pattern.takeWhile (· ≠ '*')

/-- A pattern has no component that begins with a dot, and at most one star, which is in the last component. -/
def tidy (pattern : Str) : Bool :=
  (pattern.splitOn '/').all (·.head? ≠ some '.') && pattern.count '*' ≤ 1 &&
    ('*' ∉ pattern || (folderOf pattern).getLast? = some '/' && '/' ∉ (pattern.dropWhile (· ≠ '*')).tail)

/-- Only patterns with a star in the same folder begin with the folder of a pattern with a star. -/
def apart (pattern other : Str) : Bool :=
  '*' ∉ pattern || !startsWith (folderOf pattern) other || '*' ∈ other && folderOf other = folderOf pattern

theorem family_tidy (family : Family) : ∀ pattern ∈ family_paths family, tidy pattern = true := by
  cases family <;> with_unfolding_all decide

theorem family_apart (family : Family) :
    ∀ pattern ∈ family_paths family, ∀ other ∈ family_paths family, apart pattern other = true := by
  cases family <;> with_unfolding_all decide

theorem not_star {s : Str} (h : '*' ∉ s) : ∀ c ∈ s, decide (c ≠ '*') = true := by
  intro c hc
  rw [decide_eq_true_eq]
  rintro rfl
  exact h hc

theorem folderOf_eq {folder suffix : Str} (h : '*' ∉ folder) : folderOf (folder ++ '*' :: suffix) = folder := by
  rw [folderOf, List.takeWhile_append_of_pos (not_star h)]
  simp

/-- A pattern with a star: its folder, and what follows the star -/
structure Starred (family : Family) (dir suffix : Str) : Prop where
  mem : dir ++ '/' :: '*' :: suffix ∈ family_paths family
  dir_star : '*' ∉ dir
  suffix_star : '*' ∉ suffix
  suffix_slash : '/' ∉ suffix

theorem starred_of_mem {family : Family} {folder suffix : Str} (h : folder ++ '*' :: suffix ∈ family_paths family) :
    ∃ dir, folder = dir ++ ['/'] ∧ Starred family dir suffix := by
  have htidy := family_tidy family _ h
  simp only [tidy, Bool.and_eq_true, decide_eq_true_eq, List.count_append, List.count_cons_self] at htidy
  obtain ⟨⟨_, hcount⟩, hstar⟩ := htidy
  have hf : '*' ∉ folder := List.count_eq_zero.mp (by omega)
  have hs : '*' ∉ suffix := List.count_eq_zero.mp (by omega)
  have hmem : '*' ∈ folder ++ '*' :: suffix := by simp
  have hdrop : (folder ++ '*' :: suffix).dropWhile (· ≠ '*') = '*' :: suffix := by
    rw [List.dropWhile_append_of_pos (not_star hf)]
    simp
  rw [folderOf_eq hf, hdrop] at hstar
  simp only [hmem, not_true, decide_false, Bool.false_or, Bool.and_eq_true, decide_eq_true_eq, List.tail_cons] at hstar
  obtain ⟨dir, rfl⟩ := List.getLast?_eq_some_iff.mp hstar.1
  refine ⟨dir, rfl, ?_, ?_, hs, of_decide_eq_true hstar.2⟩
  · simpa using h
  · simpa using hf

theorem Starred.folder {family : Family} {dir suffix : Str} (h : Starred family dir suffix) :
    folderOf (dir ++ '/' :: '*' :: suffix) = dir ++ ['/'] := by
  have hd : '*' ∉ dir ++ ['/'] := by simpa using h.dir_star
  have : folderOf (dir ++ ['/'] ++ '*' :: suffix) = dir ++ ['/'] := folderOf_eq hd
  simpa using this

theorem Starred.fnmatch {family : Family} {dir suffix : Str} (h : Starred family dir suffix) (path : Str) :
    fnmatchcase (dir ++ '/' :: '*' :: suffix) path = true ↔ ∃ name, path = dir ++ '/' :: (name ++ suffix) := by
  have hd : '*' ∉ dir ++ ['/'] := by simpa using h.dir_star
  have := fnmatch_starred hd h.suffix_star path
  simpa using this

theorem Starred.glob {family : Family} {dir suffix : Str} (h : Starred family dir suffix) (path : Str) :
    glob (dir ++ '/' :: '*' :: suffix) path = true ↔
      ∃ name, path = dir ++ '/' :: (name ++ suffix) ∧ '/' ∉ name ++ suffix ∧ (name ++ suffix).head? ≠ some '.' := by
  have hslash : '/' ∉ '*' :: suffix := by simpa using h.suffix_slash
  have hdir : ∀ p ∈ dir.splitOn '/', '*' ∉ p := fun p hp hc => h.dir_star ((component_chars hp).2 _ hc)
  rw [RestorablePaths.glob, splitOn_slash, List.splitOn_eq_singleton hslash, components_append hdir]
  constructor
  · rintro ⟨cs, hpath, hcs⟩
    obtain ⟨c, rfl, hc⟩ := components_one hcs
    obtain ⟨hhead, name, rfl⟩ := (globComponent_star h.suffix_star c).mp hc
    have hmem : name ++ suffix ∈ path.splitOn '/' := by simp [hpath]
    have hno := (component_chars hmem).1
    refine ⟨name, splitOn_injective ?_, hno, hhead⟩
    rw [hpath, splitOn_slash, List.splitOn_eq_singleton hno]
  · rintro ⟨name, rfl, hno, hhead⟩
    refine ⟨[name ++ suffix], ?_, ?_⟩
    · rw [splitOn_slash, List.splitOn_eq_singleton hno]
    · refine (Bool.and_true _).trans ?_
      exact (globComponent_star h.suffix_star _).mpr ⟨hhead, name, rfl⟩

theorem glob_plain {pattern : Str} (h : '*' ∉ pattern) (path : Str) : glob pattern path = true ↔ path = pattern := by
  have hcomps : ∀ p ∈ pattern.splitOn '/', '*' ∉ p := fun p hp hc => h ((component_chars hp).2 _ hc)
  constructor
  · intro hg
    exact splitOn_injective (components_plain hcomps hg)
  · rintro rfl
    exact components_self hcomps

/-- No component of a listed path begins with a dot. -/
theorem components_head {ps cs : List Str} (hps : ∀ p ∈ ps, p.head? ≠ some '.') (h : globComponents ps cs = true) :
    ∀ c ∈ cs, c.head? ≠ some '.' := by
  induction ps generalizing cs with
  | nil =>
    cases cs with
    | nil => simp
    | cons c cs => cases h
  | cons p ps ih =>
    cases cs with
    | nil => cases h
    | cons c cs =>
      rw [globComponents_cons, Bool.and_eq_true] at h
      intro d hd
      rcases List.mem_cons.mp hd with rfl | hd
      · have hp := hps p List.mem_cons_self
        have := h.1
        simp only [globComponent, Bool.and_eq_true, Bool.or_eq_true, decide_eq_true_eq] at this
        exact this.1.resolve_right hp
      · exact ih (fun q hq => hps q (List.mem_cons_of_mem _ hq)) h.2 d hd

theorem listed_of_glob {family : Family} {pattern path : Str} (hp : pattern ∈ family_paths family)
    (h : glob pattern path = true) : Listed family path := by
  refine ⟨⟨pattern, hp, h⟩, fun comp hcomp => ?_⟩
  have htidy := family_tidy family pattern hp
  rw [tidy, Bool.and_eq_true, Bool.and_eq_true, List.all_eq_true] at htidy
  have hhead := components_head (fun p hp => by simpa using htidy.1.1 p hp) h comp hcomp
  refine ⟨?_, ?_⟩ <;> rintro rfl
  · exact hhead (by with_unfolding_all decide)
  · exact hhead (by with_unfolding_all decide)

theorem path_allowed_iff (path : Str) (family : Family) :
    path_allowed path family = true ↔ Plain path ∧ ∃ pattern ∈ family_paths family, fnmatchcase pattern path = true := by
  rw [path_allowed, Plain]
  split
  · rename_i h
    simp only [Bool.or_eq_true, Bool.not_eq_true', decide_eq_true_eq] at h
    constructor
    · intro hf
      cases hf
    · rintro ⟨⟨h₁, h₂, h₃⟩, _⟩
      rcases h with (h | h) | h
      · rw [h₁] at h
        cases h
      · exact absurd h₂ h
      · exact absurd h h₃
  · rename_i h
    simp only [Bool.or_eq_true, Bool.not_eq_true', decide_eq_true_eq, not_or, Bool.not_eq_false, not_not] at h
    rw [List.any_eq_true]
    exact ⟨fun hp => ⟨⟨h.1.1, h.1.2, h.2⟩, hp⟩, fun hp => hp.2⟩

/-! ## What may be written -/

theorem listed_of_flat {family : Family} {path : Str} (hflat : Flat family path) (h : path_allowed path family = true) :
    Listed family path := by
  obtain ⟨hplain, pattern, hp, hmatch⟩ := (path_allowed_iff path family).mp h
  by_cases hstar : '*' ∈ pattern
  · obtain ⟨folder, suffix, rfl⟩ := List.append_of_mem hstar
    obtain ⟨dir, rfl, hs⟩ := starred_of_mem hp
    rw [List.append_assoc] at hp hmatch
    obtain ⟨name, rfl⟩ := (hs.fnmatch path).mp hmatch
    have := hflat hplain (dir ++ ['/']) suffix (by simpa using hs.mem) name (by simp)
    exact listed_of_glob hs.mem ((hs.glob _).mpr ⟨name, rfl, this.1, this.2⟩)
  · have hpath := (fnmatch_self hstar path).mp hmatch
    exact listed_of_glob hp ((glob_plain hstar path).mpr hpath)

/-- A pattern that begins with the folder of a pattern with a star has a star in the same folder. -/
theorem same_folder {family : Family} {dir suffix other rest : Str} (h : Starred family dir suffix)
    (ho : other ∈ family_paths family) (he : other = dir ++ '/' :: rest) :
    ∃ suffix', other = dir ++ '/' :: '*' :: suffix' ∧ Starred family dir suffix' := by
  have hapart := family_apart family _ h.mem other ho
  have hstarts : startsWith (dir ++ ['/']) other = true := (startsWith_iff _ _).mpr ⟨rest, by simp [he]⟩
  rw [apart, h.folder, hstarts] at hapart
  simp only [List.mem_append, List.mem_cons, true_or, or_true, not_true, decide_false, Bool.not_true, Bool.false_or,
    Bool.and_eq_true, decide_eq_true_eq] at hapart
  obtain ⟨folder, suffix', rfl⟩ := List.append_of_mem hapart.1
  obtain ⟨dir', rfl, hs⟩ := starred_of_mem ho
  have hfolder := hs.folder
  rw [List.append_assoc] at hapart ⊢
  have hdir : dir' = dir := by
    have := hfolder.symm.trans hapart.2
    simpa using this
  subst hdir
  exact ⟨suffix', rfl, hs⟩

theorem same_dir {family : Family} {dir dir' suffix suffix' r : Str} (h : Starred family dir suffix)
    (h' : Starred family dir' suffix') (hr : dir' ++ ['/'] = dir ++ ['/'] ++ r) : dir' = dir := by
  have he : dir' ++ '/' :: '*' :: suffix' = dir ++ '/' :: (r ++ '*' :: suffix') := by
    have := congrArg (· ++ '*' :: suffix') hr
    simpa using this
  obtain ⟨s, hs, hstarred⟩ := same_folder h h'.mem he
  have hfolder := congrArg folderOf hs
  rw [h'.folder, hstarred.folder] at hfolder
  simpa using hfolder

theorem flat_of_listed {family : Family} {path : Str}
    (h : path_allowed path family = true → Listed family path) : Flat family path := by
  intro hplain folder suffix hmem name hpath
  obtain ⟨dir, rfl, hs⟩ := starred_of_mem hmem
  have hslash : path = dir ++ '/' :: (name ++ suffix) := by simp [hpath]
  have hallowed := (path_allowed_iff path family).mpr ⟨hplain, _, hs.mem, (hs.fnmatch path).mpr ⟨name, hslash⟩⟩
  obtain ⟨⟨other, ho, hglob⟩, _⟩ := h hallowed
  by_cases hstar : '*' ∈ other
  · obtain ⟨folder', suffix', rfl⟩ := List.append_of_mem hstar
    obtain ⟨dir', rfl, hs'⟩ := starred_of_mem ho
    rw [List.append_assoc] at ho hglob
    obtain ⟨name', hslash', hno, hhead⟩ := (hs'.glob path).mp hglob
    -- Of two folders that begin the path, one begins the other.
    have hdir : dir' = dir := by
      have heq : dir ++ ['/'] ++ (name ++ suffix) = dir' ++ ['/'] ++ (name' ++ suffix') := by
        simpa using hslash.symm.trans hslash'
      rcases List.append_eq_append_iff.mp heq with ⟨r, hr, _⟩ | ⟨r, hr, _⟩
      · exact same_dir hs hs' hr
      · exact (same_dir hs' hs hr).symm
    have hname : name ++ suffix = name' ++ suffix' := by
      rw [hslash, hdir] at hslash'
      simpa using hslash'
    rw [hname]
    exact ⟨hno, hhead⟩
  · obtain rfl := (glob_plain hstar path).mp hglob
    obtain ⟨suffix', he, _⟩ := same_folder hs ho hslash
    exact absurd (by simp [he]) hstar

theorem allowed_listed_iff (family : Family) (path : Str) :
    (path_allowed path family = true → Listed family path) ↔ Flat family path :=
  ⟨flat_of_listed, fun hflat h => listed_of_flat hflat h⟩

def hiddenFile : Str := lit "/etc/profile.d/old/.evil.sh"

/-- A restore may write a hidden file in a folder that the backup never reads. -/
theorem hidden_allowed : path_allowed hiddenFile .linux = true ∧ ¬ Listed .linux hiddenFile := by
  refine ⟨by with_unfolding_all decide, ?_⟩
  rintro ⟨⟨pattern, hp, hg⟩, _⟩
  have hnone : ∀ pattern ∈ family_paths .linux, glob pattern hiddenFile = false := by with_unfolding_all decide
  rw [hnone pattern hp] at hg
  cases hg

end RestorablePaths
