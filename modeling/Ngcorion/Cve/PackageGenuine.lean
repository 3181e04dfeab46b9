import Mathlib.Data.List.TakeWhile
import Ngcorion.Cve.PackageFile
import Ngcorion.Refusal

/-!
# What a verified package holds

A file whose checks pass has the manifest of a package that `build` made, and each member that is read has the bytes that
`build` wrote. A file that fails a check changes nothing but that the instance has its own key.
-/
namespace PackageGenuine

open Text Octets CveStore PackageFile
open Json (Value Tidy)

section

variable {F : Type} (p : Platform F)

/-- What the platform's documentation promises, and a hash without collisions -/
structure Lawful : Prop where
  sha256_injective : Function.Injective p.sha256
  gunzip_gzip : ∀ writes, p.gunzip (p.gzip writes) = some writes.flatten
  float_repr : ∀ x, p.float (p.repr x) = some x
  repr_plain : ∀ x, EpssCsv.PlainField (p.repr x)
  jsonText_ascii : ∀ s, (∀ c ∈ s, Json.Printable c ∨ Json.isBlank c = true) → p.jsonText (utf8 s) = some s
  nesting : 3 ≤ p.nesting

/-- A package that some instance made -/
def Made (built : Built F) : Prop := ∃ raw created_at kind since src, build p raw created_at kind since src = .ok built

/-- What the trusted keys signed are manifests that `build` made. -/
def Signs {S : Type} (env : Environment) (db : PackageFile.Db S) : Prop :=
  ∀ k ∈ (trusted p env db).2, ∀ raw, load_public p k.public_key = some raw → ∀ signature data,
    env.verifies raw signature data = true → ∃ built, Made p built ∧ built.manifest_bytes = data

/-- A name that stands in a CSV text as it is, known percentiles, and a date on one line -/
structure PlainScores (c : Contents F) : Prop where
  date : ∀ x ∈ c.epss_date, isLineBreak x = false
  rows : ∀ e ∈ c.epss, EpssCsv.PlainRow e

/-- What is applied is what a package was made with. -/
structure Carries (built : Built F) (a : Applied F) : Prop where
  cves : a.cves = built.contents.cves
  kev : a.kev = built.contents.kev
  epss : a.epss = (EpssCsv.parse_epss_csv p.float (EpssCsv.epssText p.repr built.contents.epss_date built.contents.epss)).rows
  scores : PlainScores built.contents → a.epss = built.contents.epss.filterMap EpssCsv.scoreOf
  advisories : a.advisories = built.contents.advisories
  info : Value.obj a.info = Json.sortKeys (.obj built.contents.info)

end

section

variable {F : Type} {p : Platform F}

/-! ## Bytes -/

theorem utf8_append (s t : Str) : utf8 (s ++ t) = utf8 s ++ utf8 t := by
  rw [utf8, String.ofList_append, encode_append]
  rfl

theorem utf8_flatten (texts : List Str) : (texts.map utf8).flatten = utf8 texts.flatten := by
  induction texts with
  | nil => rfl
  | cons s texts ih => rw [List.map_cons, List.flatten_cons, ih, List.flatten_cons, utf8_append]

theorem decode_utf8 (s : Str) : (decode (utf8 s)).map String.toList = some s := by simp [utf8]

theorem gunzip_utf8 (h : Lawful p) (texts : List Str) :
    (p.gunzip (p.gzip (texts.map utf8))).bind decode = some (String.ofList texts.flatten) := by
  rw [h.gunzip_gzip, utf8_flatten, Option.bind_some, utf8, decode_encode]

/-! ## Values -/

theorem tidy_mono {d e : Nat} {v : Value F} (ht : Tidy d v) (h : d ≤ e) : Tidy e v := by
  induction ht generalizing e with
  | null d => exact .null e
  | bool d b => exact .bool e b
  | int d n => exact .int e n
  | float d x => exact .float e x
  | str d s => exact .str e s
  | arr d vs hvs ih =>
    obtain ⟨e, rfl⟩ : ∃ k, e = k + 1 := ⟨e - 1, by omega⟩
    exact .arr e vs fun v hv => ih v hv (by omega)
  | obj d fs hkeys hfs ih =>
    obtain ⟨e, rfl⟩ : ∃ k, e = k + 1 := ⟨e - 1, by omega⟩
    exact .obj e fs hkeys fun f hf => ih f hf (by omega)

theorem tidy_optional (d : Nat) (s : Option Str) : Tidy d (optional s : Value F) := by
  cases s with
  | none => exact .null d
  | some s => exact .str d s

theorem tidy_texts (d : Nat) (texts : List Str) : Tidy (d + 1) (.arr (texts.map .str) : Value F) := by
  refine .arr d _ fun v hv => ?_
  obtain ⟨s, -, rfl⟩ := List.mem_map.mp hv
  exact .str d s

theorem tidy_cpe (c : Cpe) : Tidy 1 (cpeRecord c : Value F) := by
  refine .obj 0 _ (by simp only [Dict.keys, List.map]; with_unfolding_all decide) ?_
  simp only [List.forall_mem_cons]
  exact ⟨tidy_optional 0 _, .str 0 _, .str 0 _, tidy_optional 0 _, tidy_optional 0 _, tidy_optional 0 _, tidy_optional 0 _,
    tidy_optional 0 _, by simp⟩

theorem tidy_record (id : CveId) (e : Nvd F) (cpes : List Cpe) : Tidy 3 (_record p id e cpes) := by
  have hscore : Tidy 0 (e.cvss_score.elim .null .float : Value F) := by
    cases e.cvss_score with
    | none => exact .null 0
    | some x => exact .float 0 x
  have hcvss : Tidy 1 (.obj [(lit "score", e.cvss_score.elim .null .float), (lit "version", optional e.cvss_version),
      (lit "severity", optional e.severity), (lit "vector", optional e.cvss_vector)] : Value F) := by
    refine .obj 0 _ (by simp only [Dict.keys, List.map]; with_unfolding_all decide) ?_
    simp only [List.forall_mem_cons]
    exact ⟨hscore, tidy_optional 0 _, tidy_optional 0 _, tidy_optional 0 _, by simp⟩
  have hcpes : Tidy 2 (.arr (cpes.map cpeRecord) : Value F) := by
    refine .arr 1 _ fun v hv => ?_
    obtain ⟨c, -, rfl⟩ := List.mem_map.mp hv
    exact tidy_cpe c
  refine .obj 2 _ (by simp only [Dict.keys, List.map]; with_unfolding_all decide) ?_
  simp only [List.forall_mem_cons]
  exact ⟨.str 2 _, tidy_optional 2 _, tidy_optional 2 _, tidy_optional 2 _, .str 2 _, tidy_mono hcvss (by omega),
    tidy_optional 2 _, tidy_mono (tidy_texts 0 _) (by omega), hcpes, by simp⟩

theorem tidy_kevRecord (id : CveId) (k : Kev) : Tidy 1 (kevRecord p id k : Value F) := by
  refine .obj 0 _ (by simp only [Dict.keys, List.map]; with_unfolding_all decide) ?_
  simp only [List.forall_mem_cons]
  exact ⟨.str 0 _, tidy_optional 0 _, tidy_optional 0 _, tidy_optional 0 _, tidy_optional 0 _, by simp⟩

theorem tidy_advisory (r : DistroVuln) : Tidy 2 (advisoryRecord p r : Value F) := by
  refine .obj 1 _ (by simp only [Dict.keys, List.map]; with_unfolding_all decide) ?_
  simp only [List.forall_mem_cons]
  exact ⟨.str 1 _, .str 1 _, .str 1 _, .str 1 _, .str 1 _, tidy_optional 1 _, tidy_optional 1 _, tidy_optional 1 _,
    tidy_texts 0 _, tidy_optional 1 _, .str 1 _, tidy_optional 1 _, tidy_optional 1 _, tidy_optional 1 _, by simp⟩

variable {kind : OfflinePackage.Kind} {since : Option Nat} {src : Source F}

theorem tidy_kev : Tidy 3 (.obj (contents p kind since src).kev : Value F) := by
  have hitems : Tidy 2 (.arr ((src.db.entries.filter fun e => e.2.kev.kev).map fun e => kevRecord p e.1 e.2.kev) : Value F) := by
    refine .arr 1 _ fun v hv => ?_
    obtain ⟨e, -, rfl⟩ := List.mem_map.mp hv
    exact tidy_kevRecord e.1 e.2.kev
  refine .obj 2 _ (by simp only [contents, Dict.keys, List.map]; with_unfolding_all decide) ?_
  simp only [contents, List.forall_mem_cons]
  exact ⟨tidy_optional 2 _, tidy_optional 2 _, hitems, by simp⟩

/-- The releases that are loaded are different ones. -/
theorem info_keys : (Dict.keys (contents p kind since src).info).Nodup := by
  have hsub : (Dict.keys (contents p kind since src).info).Sublist (src.feeds.map DistroFeed.release) := by
    have hkeys : Dict.keys (contents p kind since src).info = (loadedFeeds src).map Prod.fst := by
      simp [contents, advisoryInfo, Dict.keys]
    rw [hkeys, loadedFeeds]
    induction src.feeds with
    | nil => exact List.Sublist.refl _
    | cons f feeds ih =>
      by_cases hf : f.rows = 0
      · simpa [List.filterMap_cons, hf] using ih.cons f.release
      · cases hw : f.watermark with
        | none => simpa [List.filterMap_cons, hf, hw] using ih.cons f.release
        | some w => simpa [List.filterMap_cons, hf, hw] using ih.cons_cons f.release
  exact hsub.nodup src.releases_unique

theorem tidy_info : Tidy 2 (.obj (contents p kind since src).info : Value F) := by
  refine .obj 1 _ info_keys fun f hf => ?_
  obtain ⟨g, -, rfl⟩ := List.mem_map.mp hf
  refine .obj 0 _ (by simp only [Dict.keys, List.map]; with_unfolding_all decide) ?_
  simp only [List.forall_mem_cons]
  exact ⟨.str 0 _, .int 0 _, by simp⟩

theorem members_keys (c : Contents F) : (Dict.keys (members p c)).Nodup := by
  unfold members
  split
  · simp only [Dict.keys, List.append_nil, List.map]
    with_unfolding_all decide
  · simp only [Dict.keys, List.map, List.cons_append, List.nil_append]
    with_unfolding_all decide

theorem tidy_manifest (raw : Bytes) (created_at : Str) (ends : Nat) :
    Tidy 3 (.obj (manifestFields p raw created_at kind since ends src)) := by
  have hcount : ∀ a b c : Int, Tidy 2 (.obj [(lit "cves", .int a), (lit "kev", .int b), (lit "epss", .int c)] : Value F) := by
    intro a b c
    refine .obj 1 _ (by simp only [Dict.keys, List.map]; with_unfolding_all decide) ?_
    simp only [List.forall_mem_cons]
    exact ⟨.int 1 _, .int 1 _, .int 1 _, by simp⟩
  have hkev : Tidy 2 (.obj [(lit "version", optional src.kev_version), (lit "released", optional src.kev_released)] :
      Value F) := by
    refine .obj 1 _ (by simp only [Dict.keys, List.map]; with_unfolding_all decide) ?_
    simp only [List.forall_mem_cons]
    exact ⟨tidy_optional 1 _, tidy_optional 1 _, by simp⟩
  have hfiles : Tidy 2 (.obj ((members p (contents p kind since src)).map fun m =>
      (m.1, .obj [(lit "sha256", .str (p.sha256 m.2)), (lit "size", .int m.2.length)])) : Value F) := by
    refine .obj 1 _ ?_ fun f hf => ?_
    · simpa [Dict.keys, List.map_map, Function.comp_def] using members_keys (contents p kind since src)
    · obtain ⟨m, -, rfl⟩ := List.mem_map.mp hf
      refine .obj 0 _ (by simp only [Dict.keys, List.map]; with_unfolding_all decide) ?_
      simp only [List.forall_mem_cons]
      exact ⟨.str 0 _, .int 0 _, by simp⟩
  have hinfo : Tidy 2 (.obj (contents p kind since src).info : Value F) := tidy_info
  unfold manifestFields
  dsimp only
  split
  · rw [List.append_nil]
    refine .obj 2 _ (by simp only [Dict.keys, List.map]; with_unfolding_all decide) ?_
    simp only [List.forall_mem_cons]
    exact ⟨.int 2 _, .str 2 _, .str 2 _, .str 2 _, tidy_optional 2 _, .str 2 _, hcount _ _ _, hkev, tidy_optional 2 _, hfiles,
      .str 2 _, by simp⟩
  · simp only [List.cons_append, List.nil_append]
    refine .obj 2 _ (by simp only [Dict.keys, List.map]; with_unfolding_all decide) ?_
    simp only [List.forall_mem_cons]
    exact ⟨.int 2 _, .str 2 _, .str 2 _, .str 2 _, tidy_optional 2 _, .str 2 _, hcount _ _ _, hkev, tidy_optional 2 _, hfiles,
      .str 2 _, hinfo, by simp⟩

/-! ## The manifest -/

theorem loadsText_dumps (h : Lawful p) {v : Value F} (ht : Tidy 3 v) {l : Json.Layout} {blanks : Str}
    (hb : ∀ c ∈ blanks, Json.isBlank c = true) : loadsText p (Json.dumps p.floats l v ++ blanks) = .ok v := by
  rw [loadsText, Json.loads_dumps (tidy_mono ht h.nesting) hb]
  rfl

theorem loadsBytes_dumps (h : Lawful p) {v : Value F} (ht : Tidy 3 v) (l : Json.Layout) :
    loadsBytes p (utf8 (Json.dumps p.floats l v)) = .ok v := by
  have hloads : loadsText p (Json.dumps p.floats l v ++ []) = .ok v := loadsText_dumps h ht (by simp)
  rw [List.append_nil] at hloads
  rw [loadsBytes, h.jsonText_ascii _ (Json.dumps_all ht)]
  exact hloads

/-- The keys of the manifest that a package was made with, sorted -/
def sorted (fs : List (Str × Value F)) : List (Str × Value F) :=
  (Json.sortFields fs).insertionSort fun a b => a.1 ≤ b.1

theorem sortKeys_obj (fs : List (Str × Value F)) : Json.sortKeys (.obj fs) = .obj (sorted fs) := by rw [Json.sortKeys, sorted]

/-- What `build` returned is the contents of a database, with the manifest for them. -/
structure MadeFrom (p : Platform F) (built : Built F) (raw : Bytes) (created_at : Str) (kind : OfflinePackage.Kind)
    (since : Option Nat) (ends : Nat) (src : Source F) : Prop where
  contents : built.contents = PackageFile.contents p kind since src
  manifest : built.manifest = manifestFields p raw created_at kind since ends src
  bytes : built.manifest_bytes = utf8 (Json.dumps p.floats (Json.indented 2) (Json.sortKeys (.obj built.manifest)))
  members : built.members = PackageFile.members p built.contents

theorem made_from {built : Built F} (h : Made p built) :
    ∃ raw created_at kind since ends src, MadeFrom p built raw created_at kind since ends src := by
  obtain ⟨raw, created_at, kind, since, src, h⟩ := h
  unfold build at h
  cases hends : src.watermark with
  | none =>
    rw [hends] at h
    cases h
  | some ends =>
    rw [hends] at h
    dsimp only at h
    split at h
    · cases h
    · cases h
      refine ⟨raw, created_at, kind, since, ends, src, ?_⟩
      constructor <;> dsimp only

section

variable {built : Built F} {raw : Bytes} {created_at : Str} {ends : Nat}

theorem MadeFrom.tidy (h : MadeFrom p built raw created_at kind since ends src) : Tidy 3 (.obj built.manifest) := by
  rw [h.manifest]
  exact tidy_manifest raw created_at ends

theorem MadeFrom.nodup (h : MadeFrom p built raw created_at kind since ends src) : (Dict.keys built.manifest).Nodup := by
  cases h.tidy with
  | obj d fs hkeys hfs => exact hkeys

/-- The manifest is read as it was made, with its keys sorted. -/
theorem MadeFrom.loads (hlaw : Lawful p) (h : MadeFrom p built raw created_at kind since ends src) :
    loadsBytes p built.manifest_bytes = .ok (.obj (sorted built.manifest)) := by
  rw [h.bytes, loadsBytes_dumps hlaw (Json.tidy_sortKeys h.tidy), sortKeys_obj]

theorem MadeFrom.get (h : MadeFrom p built raw created_at kind since ends src) {key : Str} {v : Value F}
    (hmem : (key, v) ∈ built.manifest) : Dict.get (sorted built.manifest) key = some (Json.sortKeys v) := by
  rw [sorted, Json.get_sorted h.nodup, Dict.get_of_mem _ h.nodup key v hmem]
  rfl

/-- The manifest lists each member with its digest. -/
theorem MadeFrom.files (h : MadeFrom p built raw created_at kind since ends src) :
    getDict p (sorted built.manifest) (lit "files") = .ok (sorted (built.members.map fun m =>
      (m.1, .obj [(lit "sha256", .str (p.sha256 m.2)), (lit "size", .int m.2.length)]))) := by
  have hmem : (lit "files", .obj (built.members.map fun m =>
      (m.1, .obj [(lit "sha256", .str (p.sha256 m.2)), (lit "size", .int m.2.length)]))) ∈ built.manifest := by
    rw [h.manifest, h.members, h.contents]
    simp [manifestFields]
  rw [getDict, h.get hmem, sortKeys_obj]

/-- The manifest names the releases exactly when the package has advisories. -/
theorem MadeFrom.advisories (h : MadeFrom p built raw created_at kind since ends src) :
    getDict p (sorted built.manifest) (lit "advisories") = .ok (sorted built.contents.info) := by
  by_cases hinfo : built.contents.info = []
  · have hnone : Dict.get built.manifest (lit "advisories") = none := by
      rw [Dict.get_eq_none, h.manifest]
      rw [h.contents] at hinfo
      simp only [manifestFields, hinfo, if_true, List.append_nil, Dict.keys, List.map]
      with_unfolding_all decide
    rw [getDict, sorted, Json.get_sorted h.nodup, hnone, hinfo]
    rfl
  · have hmem : (lit "advisories", .obj built.contents.info) ∈ built.manifest := by
      rw [h.manifest, h.contents]
      rw [h.contents] at hinfo
      simp [manifestFields, hinfo]
    rw [getDict, h.get hmem, sortKeys_obj]

end

/-! ## Members -/

theorem linesFrom_line {line s rest : Str} (hs : ∀ c ∈ s, c ≠ '\n' ∧ c ≠ '\r') :
    linesFrom line (s ++ '\n' :: rest) = (line ++ s ++ ['\n']) :: linesFrom [] rest := by
  induction s generalizing line with
  | nil =>
    rw [List.nil_append, List.append_nil, linesFrom, if_pos (.inl rfl)]
    intro t h
    exact absurd h (by decide)
  | cons c s ih =>
    obtain ⟨hn, hr⟩ := hs c List.mem_cons_self
    rw [List.cons_append, linesFrom, if_neg (by simp [hn, hr]), ih fun d hd => hs d (List.mem_cons_of_mem _ hd)]
    · simp
    · intro t h
      exact absurd h hr

theorem jsonLine_chars {d : Nat} {v : Value F} (ht : Tidy d v) :
    ∀ c ∈ Json.dumps p.floats Json.compact v, c ≠ '\n' ∧ c ≠ '\r' := by
  intro c hc
  have hprintable := Json.printable_compact ht c hc
  constructor
  · rintro rfl
    exact absurd hprintable.1 (by decide)
  · rintro rfl
    exact absurd hprintable.1 (by decide)

/-- The lines of a compressed member are the texts of its values. -/
theorem gzipLines_written (h : Lawful p) {d : Nat} {vs : List (Value F)} (ht : ∀ v ∈ vs, Tidy d v) :
    gzipLines p (p.gzip (vs.map fun v => utf8 (jsonLine p v))) = .ok (vs.map (jsonLine p)) := by
  have hlines : linesFrom [] (vs.map (jsonLine p)).flatten = vs.map (jsonLine p) := by
    induction vs with
    | nil => rfl
    | cons v vs ih =>
      rw [List.map_cons, List.flatten_cons, jsonLine, List.append_assoc, List.singleton_append,
        linesFrom_line (jsonLine_chars (ht v List.mem_cons_self)), List.nil_append,
        ih fun w hw => ht w (List.mem_cons_of_mem _ hw)]
  have hgunzip := gunzip_utf8 h (vs.map (jsonLine p))
  rw [List.map_map] at hgunzip
  rw [gzipLines, show (vs.map fun v => utf8 (jsonLine p v)) = vs.map (utf8 ∘ jsonLine p) from rfl, hgunzip]
  simp [hlines]

theorem strip_ne_nil {c : Char} {s : Str} (hc : isSpace c = false) : strip (c :: s) ≠ [] := by
  rw [strip, lstrip_of_head (by simpa using hc), rstrip]
  intro h
  have hsplit : ((c :: s).reverse.takeWhile isSpace) ++ ((c :: s).reverse.dropWhile isSpace) = (c :: s).reverse :=
    List.takeWhile_append_dropWhile
  rw [List.reverse_eq_nil_iff.mp h, List.append_nil] at hsplit
  have hspace := List.mem_takeWhile_imp (hsplit.symm ▸ (by simp : c ∈ (c :: s).reverse))
  rw [hc] at hspace
  cases hspace

theorem jsonLine_obj (fs : List (Str × Value F)) : ∃ s, jsonLine p (.obj fs) = '\x7b' :: s := by
  cases fs with
  | nil => exact ⟨['\x7d', '\n'], by rw [jsonLine, Json.dumps, Json.text]; rfl⟩
  | cons f fs => exact ⟨_, by rw [jsonLine, Json.dumps, Json.text]; rfl⟩

/-- A record as it was written: an object with a key, which the reader leaves as it is -/
structure Written (key : Str) (g : List (Str × Value F) → Value F) (v : Value F) (fs : List (Str × Value F)) : Prop where
  obj : v = .obj fs
  tidy : Tidy 3 v
  key : (Dict.get fs key).isSome = true
  kept : g fs = v

theorem recordOf_written (h : Lawful p) {key malformed : Str} {g : List (Str × Value F) → Value F} {v : Value F}
    {fs : List (Str × Value F)} (hv : Written key g v fs) : recordOf p key malformed (jsonLine p v) = .ok fs := by
  have hloads : loadsText p (jsonLine p v) = .ok v := loadsText_dumps h hv.tidy (forall_mem_of_all (by decide))
  rw [recordOf, hloads, hv.obj]
  simp [bind, Except.bind, pure, Except.pure, hv.key]

/-- The records of a member that was written line by line -/
theorem records_written (h : Lawful p) {key malformed : Str} {g : List (Str × Value F) → Value F} {vs : List (Value F)}
    (hvs : ∀ v ∈ vs, ∃ fs, Written key g v fs) :
    ((vs.map (jsonLine p)).filter fun line => strip line ≠ []).mapM (fun line => do
      let fs ← recordOf p key malformed line
      return g fs) = .ok vs := by
  induction vs with
  | nil => rfl
  | cons v vs ih =>
    obtain ⟨fs, hv⟩ := hvs v List.mem_cons_self
    have hfilled : strip (jsonLine p v) ≠ [] := by
      obtain ⟨s, hs⟩ := jsonLine_obj (p := p) fs
      rw [hv.obj, hs]
      exact strip_ne_nil (by decide)
    rw [List.map_cons, List.filter_cons_of_pos (by simpa using hfilled), List.mapM_cons, recordOf_written h hv,
      ih fun w hw => hvs w (List.mem_cons_of_mem _ hw)]
    simp [bind, Except.bind, pure, Except.pure, hv.kept]

/-! ## Reading a genuine package -/

section

variable {env : Environment} {file : File} {zf : Archive} {built : Built F} {raw : Bytes} {created_at : Str} {ends : Nat}

/-- A file that has the members of a package -/
structure Holds (env : Environment) (file : File) (zf : Archive) (members : List (Str × Bytes)) : Prop where
  opened : openFile env.max_package file = .ok zf
  read : ∀ m ∈ members, zf.read m.1 = .ok m.2

theorem Archive.mem_of_read {name : Str} {bytes : Bytes} (h : zf.read name = .ok bytes) : name ∈ zf.namelist := by
  unfold Archive.read at h
  split at h
  · assumption
  · cases h

theorem isSome_get {fs : List (Str × Value F)} {key : Str} (h : key ∈ Dict.keys fs) : (Dict.get fs key).isSome = true := by
  rw [Option.isSome_iff_ne_none, Ne, Dict.get_eq_none, not_not]
  exact h

theorem setdefault_present {fs : List (Str × Value F)} {key : Str} {v : Value F} (h : key ∈ Dict.keys fs) :
    setdefault fs key v = fs := if_pos (isSome_get h)

theorem written_cve (id : CveId) (e : Nvd F) (cpes : List Cpe) : ∃ fs,
    Written (lit "id") (fun fs => .obj (setdefault fs (lit "cvss") (.obj []))) (_record p id e cpes) fs := by
  refine ⟨_, rfl, tidy_record id e cpes, isSome_get (by simp [Dict.keys]), ?_⟩
  rw [setdefault_present (by simp [Dict.keys])]
  rfl

theorem written_advisory (r : DistroVuln) : ∃ fs, Written (lit "release") .obj (advisoryRecord p r : Value F) fs :=
  ⟨_, rfl, tidy_mono (tidy_advisory r) (by omega), isSome_get (by simp [Dict.keys]), rfl⟩

theorem read_cves_written (hlaw : Lawful p) (h : MadeFrom p built raw created_at kind since ends src)
    (hfile : Holds env file zf built.members) : read_cves p env file = .ok built.contents.cves := by
  have hread : zf.read (lit "cves.jsonl.gz") = .ok (p.gzip (built.contents.cves.map fun v => utf8 (jsonLine p v))) :=
    hfile.read (lit "cves.jsonl.gz", _) (by simp [h.members, members])
  have hwritten : ∀ v ∈ built.contents.cves, ∃ fs,
      Written (lit "id") (fun fs => .obj (setdefault fs (lit "cvss") (.obj []))) v fs := by
    intro v hv
    rw [h.contents, contents] at hv
    obtain ⟨e, -, rfl⟩ := List.mem_map.mp hv
    exact written_cve _ _ _
  have htidy : ∀ v ∈ built.contents.cves, Tidy 3 v := fun v hv => (hwritten v hv).elim fun _ hfs => hfs.tidy
  rw [read_cves, hfile.opened]
  simp only [bind, Except.bind, hread, gzipLines_written hlaw htidy]
  exact records_written hlaw hwritten

theorem read_advisories_written (hlaw : Lawful p) (h : MadeFrom p built raw created_at kind since ends src)
    (hfile : Holds env file zf built.members) (hinfo : built.contents.info ≠ []) :
    read_advisories p env file = .ok built.contents.advisories := by
  have hread : zf.read (lit "advisories.jsonl.gz") =
      .ok (p.gzip (built.contents.advisories.map fun v => utf8 (jsonLine p v))) :=
    hfile.read (lit "advisories.jsonl.gz", _) (by simp [h.members, members, hinfo])
  have hwritten : ∀ v ∈ built.contents.advisories, ∃ fs, Written (lit "release") .obj v fs := by
    intro v hv
    rw [h.contents, contents] at hv
    obtain ⟨r, -, rfl⟩ := List.mem_map.mp hv
    exact written_advisory r
  have htidy : ∀ v ∈ built.contents.advisories, Tidy 3 v := fun v hv => (hwritten v hv).elim fun _ hfs => hfs.tidy
  rw [read_advisories, hfile.opened]
  simp only [bind, Except.bind]
  rw [if_neg (not_not.mpr (Archive.mem_of_read hread))]
  simp only [hread, gzipLines_written hlaw htidy]
  exact records_written hlaw hwritten

theorem read_kev_written (hlaw : Lawful p) (h : MadeFrom p built raw created_at kind since ends src)
    (hfile : Holds env file zf built.members) : read_kev p env file = .ok (.obj built.contents.kev) := by
  have hmem : (lit "kev.json", utf8 (Json.dumps p.floats Json.spaced (.obj built.contents.kev))) ∈ built.members := by
    rw [h.members, members]
    exact List.mem_append_left _ (List.mem_cons_of_mem _ List.mem_cons_self)
  have hread := hfile.read _ hmem
  have htidy : Tidy 3 (.obj built.contents.kev : Value F) := by
    rw [h.contents]
    exact tidy_kev
  rw [read_kev, hfile.opened]
  simp only [bind, Except.bind, hread, loadsBytes_dumps hlaw htidy]

theorem read_epss_written (hlaw : Lawful p) (h : MadeFrom p built raw created_at kind since ends src)
    (hfile : Holds env file zf built.members) : read_epss p env file =
      .ok (EpssCsv.parse_epss_csv p.float (EpssCsv.epssText p.repr built.contents.epss_date built.contents.epss)) := by
  let header : Str := lit "#score_date:" ++ built.contents.epss_date ++ '\n' :: lit "cve,epss,percentile" ++ ['\n']
  let rows : List Str := built.contents.epss.map fun e => EpssCsv.rowText p.repr e ++ ['\n']
  have hmem : (lit "epss.csv.gz", p.gzip ((header :: rows).map utf8)) ∈ built.members := by
    rw [h.members, members, List.map_cons, List.map_map]
    exact List.mem_append_left _ (List.mem_cons_of_mem _ (List.mem_cons_of_mem _ List.mem_cons_self))
  have hread := hfile.read _ hmem
  have htext : (header :: rows).flatten = EpssCsv.epssText p.repr built.contents.epss_date built.contents.epss := by
    simp [header, rows, EpssCsv.epssText, List.flatMap_def]
  rw [read_epss, hfile.opened]
  simp only [bind, Except.bind, hread, gunzip_utf8 hlaw, htext]
  simp [pure, Except.pure]

theorem no_advisories (h : MadeFrom p built raw created_at kind since ends src) (hinfo : built.contents.info = []) :
    built.contents.advisories = [] := by
  rw [h.contents] at hinfo ⊢
  have hfeeds : loadedFeeds src = [] := List.map_eq_nil_iff.mp hinfo
  simp [contents, advisoryRows, hfeeds]

/-- A file with the members of a package is read as that package. -/
theorem readApplied_written (hlaw : Lawful p) (h : MadeFrom p built raw created_at kind since ends src)
    (hfile : Holds env file zf built.members) : ∃ a, readApplied p env file (sorted built.manifest) = .ok a ∧ Carries p built a := by
  have hkev : ∃ fs, getDict p (sorted built.manifest) (lit "kev") = .ok fs := by
    have hmem : (lit "kev", .obj [(lit "version", optional src.kev_version), (lit "released", optional src.kev_released)]) ∈
        built.manifest := by
      rw [h.manifest]
      simp [manifestFields]
    exact ⟨_, by rw [getDict, h.get hmem, sortKeys_obj]⟩
  obtain ⟨released, hreleased⟩ := hkev
  have hdefault : ∀ v, setdefault built.contents.kev (lit "released") v = built.contents.kev := fun v =>
    setdefault_present (by rw [h.contents]; simp [contents, Dict.keys])
  have hadvisories : advisoriesOf p env file (sorted built.contents.info) = .ok built.contents.advisories := by
    unfold advisoriesOf
    by_cases hinfo : built.contents.info = []
    · rw [no_advisories h hinfo, hinfo]
      rfl
    · have hne : sorted built.contents.info ≠ [] := by
        intro hnil
        have hperm := Json.keys_sorted_perm built.contents.info
        rw [← sorted, hnil] at hperm
        exact hinfo (List.map_eq_nil_iff.mp hperm.nil_eq.symm)
      rw [if_neg hne, read_advisories_written hlaw h hfile hinfo]
  have hread : ∃ date, readApplied p env file (sorted built.manifest) = .ok ⟨built.contents.cves, built.contents.kev, date,
      (EpssCsv.parse_epss_csv p.float (EpssCsv.epssText p.repr built.contents.epss_date built.contents.epss)).rows,
      sorted built.contents.info, built.contents.advisories⟩ := by
    rw [readApplied, read_kev_written hlaw h hfile]
    simp only [bind, Except.bind, hreleased, read_epss_written hlaw h hfile, read_cves_written hlaw h hfile, h.advisories,
      hadvisories, hdefault]
    exact ⟨_, rfl⟩
  obtain ⟨date, hread⟩ := hread
  exact ⟨_, hread, rfl, rfl, rfl,
    fun hplain => EpssCsv.parse_written hlaw.repr_plain hlaw.float_repr hplain.date hplain.rows, rfl, (sortKeys_obj _).symm⟩

/-! ## Verification -/

theorem intact_true {files : List (Str × Value F)} (h : intact p zf files = .ok true) {f : Str × Value F} (hf : f ∈ files) :
    ∃ data fs, zf.read f.1 = .ok data ∧ f.2 = .obj fs ∧ isText (Dict.get fs (lit "sha256")) (p.sha256 data) = true := by
  induction files with
  | nil => cases hf
  | cons g files ih =>
    obtain ⟨name, info⟩ := g
    unfold intact at h
    split at h
    · simp only [Refusal.bind_ok, Refusal.pure_ok, Bool.false_and, Bool.false_eq_true, and_false, exists_false] at h
    · rw [Refusal.bind_ok] at h
      obtain ⟨data, hdata, h⟩ := h
      cases info with
      | obj fs =>
        simp only [Refusal.bind_ok, Refusal.pure_ok, Bool.and_eq_true] at h
        obtain ⟨rest, hrest, htext, rfl⟩ := h
        rcases List.mem_cons.mp hf with rfl | hf
        · exact ⟨data, fs, hdata, rfl, htext⟩
        · exact ih hrest hf
      | _ => cases h

theorem isText_true {v : Option (Value F)} {s : Str} (h : isText v s = true) : v = some (.str s) := by
  unfold isText at h
  split at h
  · rw [of_decide_eq_true h]
  · cases h

/-- A file that is intact has the members that the manifest was made with. -/
theorem holds_of_intact (hlaw : Lawful p) (h : MadeFrom p built raw created_at kind since ends src)
    (hopen : openFile env.max_package file = .ok zf) {files : List (Str × Value F)}
    (hfiles : getDict p (sorted built.manifest) (lit "files") = .ok files) (hintact : intact p zf files = .ok true) :
    Holds env file zf built.members := by
  refine ⟨hopen, fun m hm => ?_⟩
  cases h.files.symm.trans hfiles
  let fs : List (Str × Value F) := [(lit "sha256", .str (p.sha256 m.2)), (lit "size", .int m.2.length)]
  have hmem : (m.1, Json.sortKeys (.obj fs)) ∈ sorted (built.members.map fun m =>
      (m.1, .obj [(lit "sha256", .str (p.sha256 m.2)), (lit "size", .int m.2.length)])) := by
    rw [sorted, List.mem_insertionSort, Json.sortFields_eq]
    exact List.mem_map.mpr ⟨(m.1, .obj fs), List.mem_map.mpr ⟨m, hm, rfl⟩, rfl⟩
  obtain ⟨data, gs, hread, hgs, htext⟩ := intact_true hintact hmem
  have hnodup : (Dict.keys fs).Nodup := by
    simp only [fs, Dict.keys, List.map]
    with_unfolding_all decide
  rw [sortKeys_obj] at hgs
  cases hgs
  have hdigest := isText_true htext
  rw [sorted, Json.get_sorted hnodup] at hdigest
  have hsame : p.sha256 m.2 = p.sha256 data := by
    simpa [fs, Dict.get, Json.sortKeys] using hdigest
  rw [hread, hlaw.sha256_injective hsame]

variable {S : Type} {db db' : PackageFile.Db S} {v : Verified F}

theorem verify_ok (h : verify p env file db = (db', .ok v)) : ∃ zf bytes signature manifest signer,
    readManifest p env file = .ok (zf, bytes, signature, manifest) ∧
      verify_signature p env bytes signature (textOf p ((Dict.get manifest (lit "key_fingerprint")).getD (.str []))) db =
        (db', signer) ∧ verified p zf manifest signer db'.watermark = .ok v := by
  unfold verify at h
  split at h
  · cases h
  · next zf bytes signature manifest hread =>
    obtain ⟨rfl, hv⟩ := Prod.mk.inj h
    exact ⟨zf, bytes, signature, manifest, _, hread, rfl, hv⟩

theorem readManifest_ok {bytes : Bytes} {signature : Str} {manifest : List (Str × Value F)}
    (h : readManifest p env file = .ok (zf, bytes, signature, manifest)) : openFile env.max_package file = .ok zf ∧
      zf.read (lit "manifest.json") = .ok bytes ∧ loadsBytes p bytes = .ok (.obj manifest) := by
  unfold readManifest at h
  simp only [Refusal.bind_ok] at h
  obtain ⟨zf', hopen, bytes', hbytes, signature', -, h⟩ := h
  split at h
  · next manifest' hloads =>
    cases h
    exact ⟨hopen, hbytes, hloads⟩
  · cases h
  · cases h

theorem verified_unsigned (p : Platform F) (zf : Archive) (manifest : List (Str × Value F)) (watermark : Option Str) :
    ∃ v, verified p zf manifest none watermark = .ok v ∧ v.failed ≠ [] := ⟨_, rfl, by simp [Verified.failed]⟩

/-- A file whose checks pass is signed, and its files match the manifest. -/
theorem verified_passes {manifest : List (Str × Value F)} {signer watermark : Option Str}
    (h : verified p zf manifest signer watermark = .ok v) (hpass : v.failed = []) :
    v.manifest = manifest ∧ signer.isSome = true ∧
      ∃ files, getDict p manifest (lit "files") = .ok files ∧ intact p zf files = .ok true := by
  unfold verified at h
  cases hsigner : signer.filter (fun name => decide (name ≠ [])) with
  | none =>
    rw [hsigner] at h
    cases h
    simp [Verified.failed] at hpass
  | some name =>
    rw [hsigner] at h
    simp only [Refusal.bind_ok, Refusal.pure_ok] at h
    obtain ⟨files, hfiles, matching, hmatching, current, -, until', -, since', -, rfl⟩ := h
    rw [Option.filter_eq_some_iff] at hsigner
    refine ⟨rfl, by rw [hsigner.1]; rfl, files, hfiles, ?_⟩
    cases matching with
    | true => exact hmatching
    | false => simp [Verified.failed] at hpass

/-- A signature that is accepted is one of a trusted key. -/
theorem signed_made (hsigns : Signs p env db) {data : Bytes} {signature fp : Str} {signer : Option Str}
    (h : verify_signature p env data signature fp db = (db', signer)) (hsome : signer.isSome = true) :
    ∃ made, Made p made ∧ made.manifest_bytes = data := by
  unfold verify_signature at h
  split at h
  · cases h
    cases hsome
  · next sig hsig =>
    cases h
    obtain ⟨name, hname⟩ := Option.isSome_iff_exists.mp hsome
    unfold signerOf at hname
    obtain ⟨k, hk, hname⟩ := Option.bind_eq_some_iff.mp hname
    obtain ⟨raw, hraw, hname⟩ := Option.bind_eq_some_iff.mp hname
    split at hname
    · next hverifies => exact hsigns k (List.mem_of_find?_eq_some hk) raw hraw sig data hverifies
    · cases hname

theorem intact_of_reads {files : List (Str × Value F)}
    (h : ∀ f ∈ files, f.1 ∈ MEMBERS ++ OPTIONAL ∧ ∃ data fs, zf.read f.1 = .ok data ∧ f.2 = .obj fs ∧
      isText (Dict.get fs (lit "sha256")) (p.sha256 data) = true) : intact p zf files = .ok true := by
  induction files with
  | nil => rfl
  | cons f files ih =>
    obtain ⟨name, info⟩ := f
    obtain ⟨hname, data, fs, hread, hinfo, htext⟩ := h _ List.mem_cons_self
    dsimp only at hname hread hinfo
    rw [intact, if_neg (not_not.mpr hname), hread, hinfo, ih fun g hg => h g (List.mem_cons_of_mem _ hg)]
    simp [bind, Except.bind, pure, Except.pure, htext]

theorem members_named (c : Contents F) : ∀ m ∈ members p c, m.1 ∈ MEMBERS ++ OPTIONAL := by
  intro m hm
  unfold members at hm
  simp only [List.mem_append, List.mem_cons, List.not_mem_nil, or_false] at hm
  rcases hm with (rfl | rfl | rfl) | hm
  · simp [MEMBERS]
  · simp [MEMBERS]
  · simp [MEMBERS]
  · split at hm
    · cases hm
    · obtain rfl := List.mem_singleton.mp hm
      simp [OPTIONAL]

/-- The members of a package match its manifest. -/
theorem intact_written (h : MadeFrom p built raw created_at kind since ends src) (hfile : Holds env file zf built.members) :
    ∃ files, getDict p (sorted built.manifest) (lit "files") = .ok files ∧ intact p zf files = .ok true := by
  refine ⟨_, h.files, intact_of_reads fun f hf => ?_⟩
  rw [sorted, List.mem_insertionSort, Json.sortFields_eq] at hf
  obtain ⟨g, hg, rfl⟩ := List.mem_map.mp hf
  obtain ⟨m, hm, rfl⟩ := List.mem_map.mp hg
  have hnodup : (Dict.keys [(lit "sha256", (.str (p.sha256 m.2) : Value F)), (lit "size", .int m.2.length)]).Nodup := by
    simp only [Dict.keys, List.map]
    with_unfolding_all decide
  refine ⟨members_named built.contents m (h.members ▸ hm), m.2, _, hfile.read m hm, sortKeys_obj _, ?_⟩
  rw [sorted, Json.get_sorted hnodup]
  simp [Dict.get, isText, Json.sortKeys]

theorem readManifest_written {signature : Bytes} (hlaw : Lawful p) (h : MadeFrom p built raw created_at kind since ends src)
    (hopen : openFile env.max_package file = .ok zf) (hmanifest : zf.read (lit "manifest.json") = .ok built.manifest_bytes)
    (hsignature : zf.read (lit "manifest.sig") = .ok signature) : readManifest p env file =
      .ok (zf, built.manifest_bytes, strip (ascii signature), sorted built.manifest) := by
  rw [readManifest, hopen]
  simp only [bind, Except.bind, hmanifest, hsignature, h.loads hlaw]
  rfl

theorem freshness_full {manifest : List (Str × Value F)} (current since ends : Option Nat)
    (h : isText (Dict.get manifest (lit "kind")) (lit "full") = true) :
    (freshness p manifest current since ends).status ≠ .fail := by
  unfold freshness
  rw [if_pos h]
  split
  · exact nofun
  · exact nofun

/-- A complete package with a signature of a trusted key passes. -/
theorem verify_written {S : Type} {db : PackageFile.Db S} {signature signed : Bytes} {key : Str} (hlaw : Lawful p)
    (h : MadeFrom p built raw created_at .full since ends src) (hfile : Holds env file zf built.members)
    (hmanifest : zf.read (lit "manifest.json") = .ok built.manifest_bytes)
    (hsignature : zf.read (lit "manifest.sig") = .ok signature)
    (hdecode : p.b64decode (strip (ascii signature)) = some signed) (hkey : key ≠ [])
    (hsigner : signerOf p env (trusted p env db).2 signed built.manifest_bytes
      (fingerprint p (p.b64encode (p.public_key raw))) = some key) :
    ∃ v, (verify p env file db).2 = .ok v ∧ v.failed = [] := by
  obtain ⟨files, hfiles, hintact⟩ := intact_written h hfile
  have hget : ∀ key v, (key, v) ∈ manifestFields p raw created_at .full since ends src →
      Dict.get (sorted built.manifest) key = some (Json.sortKeys v) := fun _ _ hmem => h.get (h.manifest ▸ hmem)
  have hfingerprint := hget (lit "key_fingerprint") (.str (fingerprint p (p.b64encode (p.public_key raw))))
    (by simp [manifestFields])
  have hformat := hget (lit "format") (.int FORMAT) (by simp [manifestFields])
  have hkind := hget (lit "kind") (.str (lit "full")) (by simp [manifestFields, kindText])
  have huntil := hget (lit "until") (.str (p.isoformat ends)) (by simp [manifestFields])
  simp only [Json.sortKeys] at hfingerprint hformat hkind huntil
  have hsince : ∃ t, iso_to_dt p (Dict.get (sorted built.manifest) (lit "since")) = .ok t := by
    have hmem : (lit "since", optionalTime p.isoformat since) ∈ manifestFields p raw created_at .full since ends src := by
      simp [manifestFields]
    rw [hget _ _ hmem]
    cases since with
    | none => exact ⟨none, rfl⟩
    | some t => exact ⟨_, rfl⟩
  obtain ⟨begins, hbegins⟩ := hsince
  have hread := readManifest_written hlaw h hfile.opened hmanifest hsignature
  have hverify : verify_signature p env built.manifest_bytes (strip (ascii signature))
      (fingerprint p (p.b64encode (p.public_key raw))) db = ((trusted p env db).1, some key) := by
    rw [verify_signature, hdecode]
    dsimp only
    rw [hsigner]
  have hcurrent : ∃ t, iso_to_dt p ((trusted p env db).1.watermark.map Value.str) = .ok t := by
    cases (trusted p env db).1.watermark with
    | none => exact ⟨none, rfl⟩
    | some s => exact ⟨_, rfl⟩
  obtain ⟨current, hcurrent⟩ := hcurrent
  have hends : ∃ t, iso_to_dt p (some (.str (p.isoformat ends)) : Option (Value F)) = .ok t := ⟨_, rfl⟩
  obtain ⟨last, hlast⟩ := hends
  have hchecks : ∃ v, verified p zf (sorted built.manifest) (some key) (trusted p env db).1.watermark = .ok v ∧ v.failed = [] := by
    have hfilter : (some key).filter (fun name => decide (name ≠ [])) = some key := by simp [hkey]
    rw [verified, hfilter]
    simp only [bind, Except.bind, hfiles, hintact, hcurrent, huntil, hlast, hbegins, hformat]
    refine ⟨_, rfl, ?_⟩
    have hfull : isText (Dict.get (sorted built.manifest) (lit "kind")) (lit "full") = true := by
      rw [hkind]
      exact decide_eq_true rfl
    have hfresh := freshness_full (p := p) current begins last hfull
    simp [Verified.failed, isFormat, hfresh]
  obtain ⟨v, hv, hpass⟩ := hchecks
  refine ⟨v, ?_, hpass⟩
  rw [verify, hread]
  dsimp only
  rw [hfingerprint, Option.getD_some, textOf, hverify]
  exact hv

/-! ## Imports -/

/-- The bytes of a file's manifest -/
def manifestBytes (env : Environment) (file : File) : Except PyError Bytes :=
  openFile env.max_package file >>= fun zf => zf.read (lit "manifest.json")

/-- A file whose checks pass has the manifest of a package, and is read as any package with that manifest. -/
theorem readApplied_verified (hlaw : Lawful p) (hsigns : Signs p env db) (h : verify p env file db = (db', .ok v))
    (hpass : v.failed = []) :
    (∃ made, Made p made ∧ manifestBytes env file = .ok made.manifest_bytes) ∧
      ∀ made, Made p made → manifestBytes env file = .ok made.manifest_bytes →
        ∃ a, readApplied p env file v.manifest = .ok a ∧ Carries p made a := by
  obtain ⟨zf, bytes, signature, manifest, signer, hread, hsign, hverified⟩ := verify_ok h
  obtain ⟨hopen, hbytes, hloads⟩ := readManifest_ok hread
  obtain ⟨hmanifest, hsome, files, hfiles, hintact⟩ := verified_passes hverified hpass
  have hfile : manifestBytes env file = .ok bytes := by
    rw [manifestBytes, hopen]
    exact hbytes
  refine ⟨?_, fun made hmade hsame => ?_⟩
  · obtain ⟨made, hmade, rfl⟩ := signed_made hsigns hsign hsome
    exact ⟨made, hmade, hfile⟩
  · obtain ⟨raw, created_at, kind, since, ends, src, hfrom⟩ := made_from hmade
    cases hfile.symm.trans hsame
    have hsorted := hfrom.loads hlaw
    rw [hloads] at hsorted
    cases hsorted
    rw [hmanifest]
    exact readApplied_written hlaw hfrom (holds_of_intact hlaw hfrom hopen hfiles hintact)

/-- The database once the instance has its own key -/
def keyed (env : Environment) (db : PackageFile.Db S) : PackageFile.Db S :=
  { db with signing_key := some (db.signing_key.getD env.generated) }

theorem private_keyed (env : Environment) (db : PackageFile.Db S) : (_private env db).1 = keyed env db := by
  obtain ⟨signing_key, trusted_keys, watermark, store⟩ := db
  cases signing_key <;> rfl

theorem verify_signature_db (data : Bytes) (signature fp : Str) (db : PackageFile.Db S) :
    (verify_signature p env data signature fp db).1 = db ∨ (verify_signature p env data signature fp db).1 = keyed env db := by
  unfold verify_signature
  split
  · exact .inl rfl
  · exact .inr (private_keyed env db)

/-- Verification changes nothing but the key of the instance. -/
theorem verify_db (p : Platform F) (env : Environment) (file : File) (db : PackageFile.Db S) :
    (verify p env file db).1 = db ∨ (verify p env file db).1 = keyed env db := by
  unfold verify
  cases hread : readManifest p env file with
  | error e => exact .inl rfl
  | ok read => exact verify_signature_db _ _ _ db

/-- A file whose checks pass is applied as any package with its manifest; one that fails a check changes nothing but that the
instance has its own key. -/
theorem import_of_verified (hlaw : Lawful p) (hsigns : Signs p env db) (apply : Applied F → S → Except PyError S)
    (h : (verify p env file db).2 = .ok v) :
    (v.failed = [] → (∃ made, Made p made ∧ manifestBytes env file = .ok made.manifest_bytes) ∧
      ∀ made, Made p made → manifestBytes env file = .ok made.manifest_bytes → ∃ a, Carries p made a ∧
        _import p env apply file db =
          finish (verify p env file db).1 (commit p apply a v.manifest (verify p env file db).1)) ∧
    (v.failed ≠ [] → (∃ e, (_import p env apply file db).2 = .error e) ∧
      ((_import p env apply file db).1 = db ∨ (_import p env apply file db).1 = keyed env db)) := by
  have hverify : verify p env file db = ((verify p env file db).1, .ok v) := Prod.ext rfl h
  refine ⟨fun hpass => ?_, fun hfail => ?_⟩
  · obtain ⟨hmade, hcarries⟩ := readApplied_verified hlaw hsigns hverify hpass
    refine ⟨hmade, fun made hm hsame => ?_⟩
    obtain ⟨a, hread, ha⟩ := hcarries made hm hsame
    refine ⟨a, ha, ?_⟩
    rw [_import, hverify]
    simp only [hpass, hread]
    rfl
  · obtain ⟨c, cs, hfailed⟩ := List.exists_cons_of_ne_nil hfail
    have himport : _import p env apply file db = ((verify p env file db).1, .error (.package c.detail)) := by
      rw [_import, hverify]
      simp only [hfailed]
    rw [himport]
    exact ⟨⟨_, rfl⟩, verify_db p env file db⟩

end

end

/-! ## A package of a small instance -/

section

def charsOf (bytes : Bytes) : Str := bytes.map fun b => Char.ofNat b.toNat

def bytesOf (s : Str) : Bytes := s.map fun c => UInt8.ofNat c.toNat

theorem bytesOf_charsOf (bytes : Bytes) : bytesOf (charsOf bytes) = bytes := by
  simp [bytesOf, charsOf, byte_of_char, Function.comp_def]

/-- One number, digests that are the bytes themselves, and members that are not compressed -/
def plain : Platform Unit where
  floats :=
    { dump := fun _ => ['0', '.', '0']
      load := fun _ => ()
      dump_text := Json.floatText_zero
      load_dump := fun _ => rfl }
  nesting := 3
  jsonText := fun bytes => (decode bytes).map String.toList
  repr := fun _ => ['0', '.', '0']
  float := fun s => if s = ['0', '.', '0'] then some () else none
  str := fun _ => []
  isoformat := fun _ => []
  isodate := fun _ => []
  fromisoformat := fun _ => none
  strftime := fun _ => []
  sha256 := charsOf
  gzip := List.flatten
  gunzip := some
  b64encode := charsOf
  b64decode := fun s => some (bytesOf s)
  public_key := id
  sign := fun _ _ => []

theorem zero_plain : EpssCsv.PlainField ['0', '.', '0'] := ⟨by decide, by decide, forall_mem_of_all (by decide)⟩

theorem plain_lawful : Lawful plain where
  sha256_injective := Function.LeftInverse.injective bytesOf_charsOf
  gunzip_gzip := fun _ => rfl
  float_repr := fun _ => rfl
  repr_plain := fun _ => zero_plain
  jsonText_ascii := fun s _ => decode_utf8 s
  nesting := le_refl 3

/-- A database with the score of one CVE -/
def scored (id : CveId) : Source Unit where
  watermark := some 0
  db := ⟨[(id, ⟨⟨none, none, none, [], none, none, none, none, none, []⟩, ⟨false, none, none, none, none⟩,
    ⟨some (), some ()⟩, 0⟩)], []⟩
  kev_version := none
  kev_released := none
  epss_date := none
  instance_name := none
  feeds := []
  releases_unique := List.nodup_nil
  vulns := []

def own : Bytes := List.replicate 32 0

/-- The package of that database -/
def pack (id : CveId) : Built Unit :=
  let manifest := manifestFields plain own [] .full none 0 (scored id)
  ⟨contents plain .full none (scored id), manifest,
    utf8 (Json.dumps plain.floats (Json.indented 2) (Json.sortKeys (.obj manifest))), [],
    members plain (contents plain .full none (scored id))⟩

theorem build_pack (id : CveId) : build plain own [] .full none (scored id) = .ok (pack id) := rfl

theorem pack_from (id : CveId) : MadeFrom plain (pack id) own [] .full none 0 (scored id) where
  contents := by dsimp only [pack]
  manifest := by dsimp only [pack]
  bytes := by dsimp only [pack]
  members := by dsimp only [pack]

/-- Signatures are accepted for the manifest of the package only. -/
def world (id : CveId) : Environment := ⟨[], own, fun _ _ data => data == (pack id).manifest_bytes, 0⟩

/-- An instance that has the key of the package, and keeps what it is given of EPSS -/
def holder : PackageFile.Db (List (Option Str × Unit × Unit)) := ⟨some own, [], none, []⟩

def keepEpss (a : Applied Unit) (_ : List (Option Str × Unit × Unit)) : Except PyError (List (Option Str × Unit × Unit)) := .ok a.epss

theorem made_pack (id : CveId) : Made plain (pack id) := ⟨own, [], .full, none, scored id, build_pack id⟩

theorem signs_pack (id : CveId) : Signs plain (world id) holder := by
  intro k _ raw _ signature data hverifies
  exact ⟨pack id, made_pack id, (beq_iff_eq.mp hverifies).symm⟩

/-- What the file has under a name -/
def cells (id : CveId) : List (Str × Bytes) :=
  (lit "manifest.json", (pack id).manifest_bytes) :: (lit "manifest.sig", []) :: (pack id).members

theorem cells_keys (id : CveId) : Dict.keys (cells id) = MEMBERS := by
  have hmembers : Dict.keys (pack id).members = [lit "cves.jsonl.gz", lit "kev.json", lit "epss.csv.gz"] := rfl
  have hkeys : Dict.keys (cells id) = lit "manifest.json" :: lit "manifest.sig" :: Dict.keys (pack id).members := rfl
  rw [hkeys, hmembers, MEMBERS]

/-- The package as a file -/
def packedArchive (id : CveId) : Archive :=
  ⟨MEMBERS.map fun name => (name, 0), fun name => (Dict.get (cells id) name).elim (.error .key) .ok⟩

def packed (id : CveId) : File := ⟨0, some (packedArchive id)⟩

theorem packed_read (id : CveId) {name : Str} {bytes : Bytes} (h : (name, bytes) ∈ cells id) :
    (packedArchive id).read name = .ok bytes := by
  have hnodup : (Dict.keys (cells id)).Nodup := by
    rw [cells_keys]
    unfold MEMBERS
    with_unfolding_all decide
  have hname : name ∈ (packedArchive id).namelist := by
    have hmem : name ∈ Dict.keys (cells id) := List.mem_map.mpr ⟨(name, bytes), h, rfl⟩
    rw [cells_keys] at hmem
    simpa [packedArchive, Archive.namelist, List.map_map] using hmem
  rw [Archive.read, if_pos hname, packedArchive]
  dsimp only
  rw [Dict.get_of_mem _ hnodup name bytes h]
  rfl

theorem packed_open (id : CveId) : openFile 0 (packed id) = .ok (packedArchive id) := by
  have hnames : (packedArchive id).namelist = MEMBERS := by
    unfold packedArchive Archive.namelist MEMBERS
    rfl
  have hsizes : (packedArchive id).infolist.any (fun i => decide (MAX_MEMBER_BYTES < i.2)) = false := by
    unfold packedArchive MEMBERS
    rfl
  rw [openFile, if_neg (by simp [packed]), packed]
  dsimp only
  rw [hnames, if_neg, hsizes]
  · rfl
  · simp only [not_or, List.any_eq_true, decide_eq_true_eq, not_exists, not_and, not_not]
    exact ⟨fun x hx => hx, fun x hx hnot => absurd hx hnot⟩

theorem packed_holds (id : CveId) : Holds (world id) (packed id) (packedArchive id) (pack id).members :=
  ⟨packed_open id, fun _ hm => packed_read id (List.mem_cons_of_mem _ (List.mem_cons_of_mem _ hm))⟩

/-- The file passes. -/
theorem packed_passes (id : CveId) : ∃ v, (verify plain (world id) (packed id) holder).2 = .ok v ∧ v.failed = [] := by
  have hsigner : signerOf plain (world id) (trusted plain (world id) holder).2 [] (pack id).manifest_bytes
      (fingerprint plain (plain.b64encode (plain.public_key own))) = some (lit "This NGCorion") := by
    have hkey : load_public plain (instance_public plain own) = some own := by
      rw [load_public, instance_public]
      simp only [plain, id_eq, bytesOf_charsOf]
      rfl
    simp only [signerOf, trusted, _private, holder]
    rw [List.cons_append, List.find?_cons_of_pos (by simp [instance_public])]
    simp [hkey, world]
  exact verify_written plain_lawful (pack_from id) (packed_holds id) (packed_read id List.mem_cons_self)
    (packed_read id (List.mem_cons_of_mem _ List.mem_cons_self)) rfl (by simp [lit]) hsigner

theorem packed_manifest (id : CveId) : manifestBytes (world id) (packed id) = .ok (pack id).manifest_bytes := by
  rw [manifestBytes, world, packed_open]
  exact packed_read id List.mem_cons_self

/-- The name of a CVE without a comma -/
def one : CveId := named '1' zero_ne_one

theorem import_of_packed : ∃ v, (verify plain (world one) (packed one) holder).2 = .ok v ∧ v.failed = [] ∧
    ∃ a, Carries plain (pack one) a ∧ _import plain (world one) keepEpss (packed one) holder =
      finish (verify plain (world one) (packed one) holder).1
        (commit plain keepEpss a v.manifest (verify plain (world one) (packed one) holder).1) := by
  obtain ⟨v, hv, hpass⟩ := packed_passes one
  have himport := import_of_verified plain_lawful (signs_pack one) keepEpss hv
  exact ⟨v, hv, hpass, (himport.1 hpass).2 (pack one) (made_pack one) (packed_manifest one)⟩

/-- The name of a CVE that holds a comma -/
def comma : CveId := ⟨['C', ',', 'V'], by decide, by decide⟩

/-- A world that accepts no signature, and an instance without a key -/
def refusing : Environment := { world comma with verifies := fun _ _ _ => false }

def fresh : PackageFile.Db (List (Option Str × Unit × Unit)) := { holder with signing_key := none }

theorem refused_pack : ∃ v, verify plain refusing (packed comma) fresh = (keyed refusing fresh, .ok v) ∧ v.failed ≠ [] := by
  have hread : readManifest plain refusing (packed comma) = _ :=
    readManifest_written plain_lawful (pack_from comma) (packed_open comma) (packed_read comma List.mem_cons_self)
      (packed_read comma (List.mem_cons_of_mem _ List.mem_cons_self))
  have hsignature : ∀ data signature fp, verify_signature plain refusing data signature fp fresh = (keyed refusing fresh, none) := by
    intro data signature fp
    have hnone : signerOf plain refusing (trusted plain refusing fresh).2 (bytesOf signature) data fp = none := by
      simp [signerOf, refusing]
    exact Prod.ext rfl hnone
  obtain ⟨v, hv, hfail⟩ := verified_unsigned plain (packedArchive comma) (sorted (pack comma).manifest) none
  refine ⟨v, ?_, hfail⟩
  rw [verify, hread]
  dsimp only
  rw [hsignature]
  exact congrArg (Prod.mk _) hv

/-- The row of that CVE is not read back. -/
theorem comma_lost : (EpssCsv.parse_epss_csv plain.float
    (EpssCsv.epssText plain.repr (pack comma).contents.epss_date (pack comma).contents.epss)).rows = [] := by
  have hdate : (pack comma).contents.epss_date = [] := rfl
  have hepss : (pack comma).contents.epss = [(['C', ',', 'V'], (), some ())] := rfl
  rw [hdate, hepss]
  with_unfolding_all decide

theorem commit_kept (a : Applied Unit) {manifest : List (Str × Value Unit)} {db : PackageFile.Db (List (Option Str × Unit × Unit))}
    (hends : iso_to_dt plain (Dict.get manifest (lit "until")) = .ok none) (hwatermark : db.watermark = none) :
    commit plain keepEpss a manifest db = .ok { db with store := a.epss } := by
  rw [commit]
  simp only [keepEpss, bind, Except.bind, hends, hwatermark]
  rfl

/-- A file whose first check fails gives a fresh instance its key, and the score of a CVE whose name holds a comma is lost. -/
theorem genuine_lost :
    ((∃ v, (verify plain refusing (packed comma) fresh).2 = .ok v ∧ v.failed ≠ []) ∧
      (_import plain refusing keepEpss (packed comma) fresh).1 ≠ fresh) ∧
    ((∃ v, (verify plain (world comma) (packed comma) holder).2 = .ok v ∧ v.failed = []) ∧
      (pack comma).contents.epss = [(comma.text, (), some ())] ∧
      ∃ db, _import plain (world comma) keepEpss (packed comma) holder = (db, .ok ()) ∧ db.store = []) := by
  refine ⟨?_, packed_passes comma, rfl, ?_⟩
  · obtain ⟨v, hv, hfail⟩ := refused_pack
    obtain ⟨c, cs, hfailed⟩ := List.exists_cons_of_ne_nil hfail
    refine ⟨⟨v, by rw [hv], hfail⟩, ?_⟩
    rw [_import, hv]
    simp only [hfailed]
    exact fun h => nomatch congrArg PackageFile.Db.signing_key h
  · obtain ⟨v, hv, hpass⟩ := packed_passes comma
    obtain ⟨db, hverify⟩ : ∃ db, verify plain (world comma) (packed comma) holder = (db, .ok v) := ⟨_, Prod.ext rfl hv⟩
    obtain ⟨-, hread⟩ := readApplied_verified plain_lawful (signs_pack comma) hverify hpass
    obtain ⟨a, ha, hcarries⟩ := hread (pack comma) (made_pack comma) (packed_manifest comma)
    have hrows : a.epss = [] := hcarries.epss.trans comma_lost
    have hends : iso_to_dt plain (Dict.get v.manifest (lit "until")) = .ok none := by
      obtain ⟨zf, bytes, signature, manifest, signer, hread', -, hverified⟩ := verify_ok hverify
      rw [readManifest_written plain_lawful (pack_from comma) (packed_open comma) (packed_read comma List.mem_cons_self)
        (packed_read comma (List.mem_cons_of_mem _ List.mem_cons_self))] at hread'
      cases hread'
      have huntil : (lit "until", .str []) ∈ (pack comma).manifest := by simp [pack, manifestFields, plain]
      rw [(verified_passes hverified hpass).1, (pack_from comma).get huntil]
      rfl
    have hwatermark : db.watermark = none := by
      have hdb := verify_db plain (world comma) (packed comma) holder
      rw [hverify] at hdb
      rcases hdb with rfl | rfl <;> rfl
    refine ⟨{ db with store := a.epss }, ?_, hrows⟩
    rw [_import, hverify]
    simp only [hpass, ha]
    exact congrArg (finish db) (commit_kept a hends hwatermark)

end

end PackageGenuine
