import Ngcorion.Backup.CiscoBanners
import Ngcorion.Backup.FileBundle
import Ngcorion.Backup.FortiOS
import Ngcorion.Json
import Ngcorion.Octets

/-!
# Fingerprints of configurations

A restore runs only while the live configuration has the fingerprint that was reviewed: the hash of the lines of its tree with
their depths, or of its files. Trees without line ends in their lines are told apart. A Cisco banner may have line ends, and what
it holds after one may read as the entries that follow another banner.
-/
namespace Fingerprint

open Text Octets ConfigTree CiscoIOS CiscoBanners FortiOS FileBundle

/-- The hash, and numbers in JSON -/
structure Library (F : Type) where
  sha256 : Bytes → Str
  floats : Json.Floats F

def renderLine (depth : Nat) (line : Str) : Str := Nat.toDigits 10 depth ++ '|' :: line

/-- A tree with the depths of its lines -/
def treeBody (f : Forest) : Str := unlines ((f.flatten 0).map fun e => renderLine e.1 e.2)

section

variable {F : Type} (u : Unicode) (lib : Library F)

def filesValue (files : List (Str × Str)) : Json.Value F := .obj (files.map fun f => (f.1, .str f.2))

/-- What is hashed, if the parser raises nothing -/
def body (family text : Str) : Option Str :=
  if family = lit "cisco" then some (treeBody (parse_cisco u text))
  else if family = lit "fortinet" then (parse_fortios text).map treeBody
  else some (Json.dumps lib.floats Json.spaced (Json.sortKeys (filesValue (parse_bundle text))))

def fingerprint (family text : Str) : Option Str :=
  (body u lib family text).map fun s => lib.sha256 (encode (String.ofList s))

/-- The parsed configurations are equal, of files the contents by their paths. -/
def SameParsed (family t₁ t₂ : Str) : Prop :=
  if family = lit "cisco" then parse_cisco u t₁ = parse_cisco u t₂
  else if family = lit "fortinet" then parse_fortios t₁ = parse_fortios t₂
  else ∀ path, Dict.get (parse_bundle t₁) path = Dict.get (parse_bundle t₂) path

/-- The hash has no two hashed bodies of a family with one value. -/
def NoCollision (family : Str) : Prop :=
  Set.InjOn lib.sha256 {bytes | ∃ text s, body u lib family text = some s ∧ bytes = encode (String.ofList s)}

end

/-! ## Lines with their depths -/

/-- Every line with its depth and a line end -/
def serial (depth : Nat) (f : Forest) : Str := (f.flatten depth).flatMap fun e => renderLine e.1 e.2 ++ ['\n']

@[simp] theorem serial_nil (depth : Nat) : serial depth .nil = [] := rfl

theorem serial_cons (depth : Nat) (key line : Str) (children rest : Forest) :
    serial depth (.cons key line children rest) =
      renderLine depth line ++ '\n' :: (serial (depth + 1) children ++ serial depth rest) := by
  simp [serial, Forest.flatten]

/-- A tree's body and its lines say the same. -/
theorem treeBody_eq_iff (f g : Forest) : treeBody f = treeBody g ↔ serial 0 f = serial 0 g := by
  have hbody : ∀ f : Forest, f ≠ .nil → treeBody f ++ ['\n'] = serial 0 f ∧ treeBody f ≠ [] := by
    intro f hf
    cases f with
    | nil => exact absurd rfl hf
    | cons key line children rest =>
      have hserial : treeBody (.cons key line children rest) ++ ['\n'] = serial 0 (.cons key line children rest) := by
        rw [treeBody, unlines_newline (by simp [Forest.flatten]), List.flatMap_map]
        rfl
      refine ⟨hserial, fun hnil => ?_⟩
      rw [hnil, serial_cons, renderLine] at hserial
      have hlength := congrArg List.length hserial
      simp only [List.length_append, List.length_cons, List.length_nil] at hlength
      omega
  by_cases hf : f = .nil
  · by_cases hg : g = .nil
    · simp [hf, hg]
    · obtain ⟨hserial, hne⟩ := hbody g hg
      rw [hf, serial_nil, ← hserial]
      simp only [List.nil_eq, List.append_eq_nil_iff, List.cons_ne_nil, and_false, iff_false]
      exact fun h => hne (by rw [← h]; rfl)
  · obtain ⟨hserial, hne⟩ := hbody f hf
    by_cases hg : g = .nil
    · rw [hg, serial_nil, ← hserial]
      simp only [List.append_eq_nil_iff, List.cons_ne_nil, and_false, iff_false]
      exact fun h => hne (by rw [h]; rfl)
    · obtain ⟨hserial', -⟩ := hbody g hg
      rw [← hserial, ← hserial', List.append_left_inj]

theorem digits_bar_inj {m n : Nat} {s t : Str} (h : Nat.toDigits 10 m ++ '|' :: s = Nat.toDigits 10 n ++ '|' :: t) :
    m = n ∧ s = t := by
  obtain ⟨hdigits, hrest⟩ := split_first_inj (not_mem_digits (by decide) m) (not_mem_digits (by decide) n) h
  exact ⟨digits_inj hdigits, hrest⟩

/-- The key is one of the line, and the line has no line end. -/
def Keyed (keyOf : Str → Str) (key line : Str) (_ : Forest) : Prop := key = keyOf line ∧ '\n' ∉ line

/-- What may come after a scope: nothing, or a line that is less deep -/
def After (depth : Nat) (s : Str) : Prop := s = [] ∨ ∃ d line, d < depth ∧ s = Nat.toDigits 10 d ++ '|' :: line

theorem after_serial {depth : Nat} {x : Str} (hx : After depth x) (f : Forest) : After (depth + 1) (serial depth f ++ x) := by
  cases f with
  | nil =>
    rcases hx with rfl | ⟨d, line, hd, rfl⟩
    · exact .inl rfl
    · exact .inr ⟨d, line, by omega, rfl⟩
  | cons key line children rest =>
    rw [serial_cons, renderLine]
    simp only [List.append_assoc, List.cons_append]
    exact .inr ⟨depth, _, by omega, rfl⟩

theorem not_after_serial (depth : Nat) (key line : Str) (children rest : Forest) (x : Str) :
    ¬ After depth (serial depth (.cons key line children rest) ++ x) := by
  rw [serial_cons, List.append_assoc, List.cons_append, renderLine, List.append_assoc, List.cons_append]
  rintro (h | ⟨d, line', hd, h⟩)
  · simp at h
  · have := (digits_bar_inj h).1
    omega

/-- The lines of a scope tell its tree. -/
theorem serial_inj {keyOf : Str → Str} {f g : Forest} (hf : f.Every (Keyed keyOf)) (hg : g.Every (Keyed keyOf)) {depth : Nat}
    {x y : Str} (hx : After depth x) (hy : After depth y) (h : serial depth f ++ x = serial depth g ++ y) : f = g ∧ x = y := by
  induction f generalizing g depth x y with
  | nil =>
    cases g with
    | nil => exact ⟨rfl, by simpa using h⟩
    | cons key line children rest =>
      rw [serial_nil, List.nil_append] at h
      exact absurd (h ▸ hx) (not_after_serial depth key line children rest y)
  | cons key line children rest ihc ihr =>
    cases g with
    | nil =>
      rw [serial_nil, List.nil_append] at h
      exact absurd (h ▸ hy) (not_after_serial depth key line children rest x)
    | cons key' line' children' rest' =>
      obtain ⟨-, ⟨rfl, hline⟩, hchildren, hrest⟩ := hf
      obtain ⟨-, ⟨rfl, hline'⟩, hchildren', hrest'⟩ := hg
      simp only [serial_cons, renderLine, List.append_assoc, List.cons_append] at h
      obtain ⟨-, hbehind⟩ := digits_bar_inj h
      obtain ⟨rfl, hscopes⟩ := split_first_inj hline hline' hbehind
      obtain ⟨rfl, hrests⟩ := ihc hchildren hchildren' (after_serial hx rest) (after_serial hy rest') hscopes
      obtain ⟨rfl, rfl⟩ := ihr hrest hrest' hx hy hrests
      exact ⟨rfl, rfl⟩

/-! ## FortiOS -/

/-- The key under which a line is filed -/
def fileKey (line : Str) : Str := if verb line = lit "set" then _forti_key line else line

theorem scope_ne_set {line : Str} (h : verb line = lit "config" ∨ verb line = lit "edit") : verb line ≠ lit "set" := by
  rcases h with h | h
  · rw [h]
    with_unfolding_all decide
  · rw [h]
    with_unfolding_all decide

theorem parseStep_keyed {s s' : Forest × List Str} {line : Str} (hs : s.1.Every (Keyed fileKey)) (hline : '\n' ∉ line)
    (h : FortiOS.parseStep s line = some s') : s'.1.Every (Keyed fileKey) := by
  obtain ⟨root, path⟩ := s
  simp only [FortiOS.parseStep] at h
  by_cases hscope : verb line = lit "config" ∨ verb line = lit "edit"
  · rw [if_pos hscope] at h
    cases h
    refine hs.changeAt (fun _ _ _ _ hp => hp) (fun g hg => hg.child ⟨?_, hline⟩) path
    rw [fileKey, if_neg (scope_ne_set hscope)]
  rw [if_neg hscope] at h
  by_cases hend : verb line = lit "end" ∨ verb line = lit "next"
  · rw [if_pos hend] at h
    cases h
    exact hs
  rw [if_neg hend] at h
  by_cases hset : verb line = lit "set"
  · rw [if_pos hset] at h
    split at h
    · simp at h
    · split at h
      · cases h
        exact hs
      · cases h
        have hkey : _forti_key line = fileKey line := by rw [fileKey, if_pos hset]
        have hnil : (Forest.nil).Every (Keyed fileKey) := trivial
        exact hs.changeAt (fun _ _ _ _ hp => hp) (fun g hg => hg.set ⟨hkey, hline⟩ hnil) path
  · rw [if_neg hset] at h
    cases h
    exact hs

theorem parseFrom_keyed (ls : List Str) (hls : ∀ l ∈ ls, '\n' ∉ l) {s s' : Forest × List Str}
    (hs : s.1.Every (Keyed fileKey)) (h : parseFrom s ls = some s') : s'.1.Every (Keyed fileKey) := by
  induction ls generalizing s with
  | nil =>
    cases h
    exact hs
  | cons line ls ih =>
    simp only [parseFrom, Option.bind_eq_some_iff] at h
    obtain ⟨s₁, hstep, hrest⟩ := h
    exact ih (fun l hl => hls l (List.mem_cons_of_mem _ hl)) (parseStep_keyed hs (hls line (by simp)) hstep) hrest

theorem parse_fortios_keyed {text : Str} {f : Forest} (h : parse_fortios text = some f) : f.Every (Keyed fileKey) := by
  simp only [parse_fortios, Option.map_eq_some_iff] at h
  obtain ⟨s, hs, rfl⟩ := h
  have hnil : (Forest.nil).Every (Keyed fileKey) := trivial
  refine parseFrom_keyed _ (fun l hl => ?_) hnil hs
  obtain ⟨raw, hraw, hkeep⟩ := List.mem_filterMap.mp hl
  have hline : l = strip raw := by
    unfold keepLine at hkeep
    dsimp only at hkeep
    split at hkeep
    · cases hkeep
    · split at hkeep
      · cases hkeep
      · exact (Option.some.inj hkeep).symm
  rw [hline]
  exact ((noBreak_splitlines text raw hraw).sublist (strip_sublist raw)).no_newline

theorem fortios_inj {t₁ t₂ : Str} {f g : Forest} (hf : parse_fortios t₁ = some f) (hg : parse_fortios t₂ = some g)
    (h : treeBody f = treeBody g) : f = g := by
  have hserial : serial 0 f ++ [] = serial 0 g ++ [] := by rw [(treeBody_eq_iff f g).mp h]
  exact (serial_inj (parse_fortios_keyed hf) (parse_fortios_keyed hg) (.inl rfl) (.inl rfl) hserial).1

/-! ## Files -/

theorem nodup_parseLines (openFile : Option (Str × List Str)) (files : List (Str × Str)) (ls : List Str)
    (h : (Dict.keys files).Nodup) : (Dict.keys (parseLines openFile files ls)).Nodup := by
  fun_induction parseLines openFile files ls with
  | case1 => exact h
  | case2 _ _ _ _ ih => exact ih h
  | case3 _ _ _ _ _ ih => exact ih h
  | case4 => exact Dict.nodup_set _ _ _ h
  | case5 _ _ _ _ ih => exact ih (Dict.nodup_set _ _ _ h)
  | case6 _ _ _ _ _ _ ih => exact ih h

theorem nodup_parse_bundle (text : Str) : (Dict.keys (parse_bundle text)).Nodup := nodup_parseLines _ _ _ (by simp)

section

variable {F : Type}

theorem get_files (files : List (Str × Str)) (path : Str) :
    Dict.get (files.map fun f => (f.1, (Json.Value.str f.2 : Json.Value F))) path = (Dict.get files path).map .str := by
  induction files with
  | nil => rfl
  | cons f files ih =>
    obtain ⟨p, content⟩ := f
    simp only [List.map_cons, Dict.get]
    split
    · rfl
    · exact ih

theorem files_inj (fl : Json.Floats F) {a b : List (Str × Str)} (ha : (Dict.keys a).Nodup) (hb : (Dict.keys b).Nodup)
    (h : Json.dumps fl Json.spaced (Json.sortKeys (filesValue a)) = Json.dumps fl Json.spaced (Json.sortKeys (filesValue b)))
    (path : Str) : Dict.get a path = Dict.get b path := by
  have hkeys (files : List (Str × Str)) : Dict.keys (files.map fun f => (f.1, (Json.Value.str f.2 : Json.Value F))) =
      Dict.keys files := by simp [Dict.keys, Function.comp_def]
  have htidy : ∀ files : List (Str × Str), (Dict.keys files).Nodup →
      Json.Tidy 1 (Json.sortKeys (filesValue files : Json.Value F)) := by
    intro files hfiles
    refine Json.tidy_sortKeys (.obj 0 _ (by rw [hkeys]; exact hfiles) fun f hf => ?_)
    obtain ⟨g, -, rfl⟩ := List.mem_map.mp hf
    exact .str 0 g.2
  have hread : ∀ files : List (Str × Str), (Dict.keys files).Nodup →
      Json.loads fl 1 (Json.dumps fl Json.spaced (Json.sortKeys (filesValue files))) = .ok (Json.sortKeys (filesValue files)) := by
    intro files hfiles
    have hloads : Json.loads fl 1 (Json.dumps fl Json.spaced _ ++ []) = _ :=
      Json.loads_dumps (htidy files hfiles) (List.forall_mem_nil _)
    rwa [List.append_nil] at hloads
  have hsame := (hread a ha).symm.trans ((congrArg _ h).trans (hread b hb))
  simp only [filesValue, Json.sortKeys, Except.ok.injEq, Json.Value.obj.injEq] at hsame
  have hget : ∀ files : List (Str × Str), (Dict.keys files).Nodup →
      Dict.get ((Json.sortFields (files.map fun f => (f.1, (Json.Value.str f.2 : Json.Value F)))).insertionSort
        fun a b => a.1 ≤ b.1) path = (Dict.get files path).map .str := by
    intro files hfiles
    rw [Json.get_sorted (by rw [hkeys]; exact hfiles), get_files]
    cases Dict.get files path with
    | none => rfl
    | some content => simp [Json.sortKeys]
  have hpath := hget a ha
  rw [hsame, hget b hb] at hpath
  have hinj : Function.Injective (Json.Value.str : Str → Json.Value F) := fun s t hst => Json.Value.str.inj hst
  exact (Option.map_injective hinj hpath).symm

end

/-! ## Cisco -/

/-- The lines of the entries of a root -/
def entryLines (es : List (Str × Str × Forest)) : Str := serial 0 (Forest.ofEntries es)

theorem entryLines_cons (key line : Str) (c : Forest) (es : List (Str × Str × Forest)) :
    entryLines ((key, line, c) :: es) = renderLine 0 line ++ '\n' :: (serial 1 c ++ entryLines es) := serial_cons 0 key line c _

theorem after_entryLines (es : List (Str × Str × Forest)) : After 1 (entryLines es) := by
  have hafter : After 1 (serial 0 (Forest.ofEntries es) ++ []) := after_serial (.inl rfl) (Forest.ofEntries es)
  rwa [List.append_nil] at hafter

theorem serial_banner (text : Str) : serial 1 (bannerNode text) = renderLine 1 text ++ ['\n'] := by
  simp [bannerNode, serial_cons]

/-- The entries agree up to a banner, and the text of the second goes on after a line end with the lines of what follows the first,
up to what follows the second. -/
def Absorbed (es es' : List (Str × Str × Forest)) : Prop :=
  ∃ same kind text more rest rest', es = same ++ (bannerKey kind, bannerKey kind, bannerNode text) :: rest ∧
    es' = same ++ (bannerKey kind, bannerKey kind, bannerNode (text ++ '\n' :: more)) :: rest' ∧
    entryLines rest = more ++ '\n' :: entryLines rest'

theorem Absorbed.cons {es es' : List (Str × Str × Forest)} (h : Absorbed es es') (e : Str × Str × Forest) :
    Absorbed (e :: es) (e :: es') := by
  obtain ⟨same, kind, text, more, rest, rest', rfl, rfl, hlines⟩ := h
  exact ⟨e :: same, kind, text, more, rest, rest', rfl, rfl, hlines⟩

theorem Absorbed.lines {es es' : List (Str × Str × Forest)} (h : Absorbed es es') : entryLines es = entryLines es' := by
  obtain ⟨same, kind, text, more, rest, rest', rfl, rfl, hlines⟩ := h
  induction same with
  | nil =>
    simp only [List.nil_append, entryLines_cons, serial_banner, hlines, renderLine]
    simp
  | cons e same ih =>
    obtain ⟨key, line, c⟩ := e
    rw [List.cons_append, List.cons_append, entryLines_cons, entryLines_cons, ih]

theorem Absorbed.ne {es es' : List (Str × Str × Forest)} (h : Absorbed es es') : es ≠ es' := by
  obtain ⟨same, kind, text, more, rest, rest', rfl, rfl, -⟩ := h
  intro heq
  have htext := List.append_cancel_left heq
  simp only [List.cons.injEq, Prod.mk.injEq, true_and] at htext
  have hlength := congrArg List.length (bannerNode_inj htext.1)
  simp at hlength

theorem no_newline_bannerKey {u : Unicode} {kind : Str} (h : Kind u kind) : '\n' ∉ bannerKey kind := by
  rw [bannerKey, List.mem_append, not_or]
  refine ⟨by with_unfolding_all decide, fun hn => ?_⟩
  have hspace := h.word '\n' hn
  exact absurd hspace (by decide)

theorem Entry.no_newline {u : Unicode} {key line : Str} {c : Forest} (h : Entry u key line c) : '\n' ∉ line := by
  cases h with
  | line _ _ _ hline _ => exact hline
  | banner kind _ hkind _ => exact no_newline_bannerKey hkind

theorem plain_keyed {f : Forest} (h : f.Every Plain) : f.Every (Keyed id) := by
  induction f with
  | nil => trivial
  | cons key line children rest ihc ihr =>
    obtain ⟨hkey, ⟨rfl, hline⟩, hchildren, hrest⟩ := h
    exact ⟨hkey, ⟨rfl, hline⟩, ihc hchildren, ihr hrest⟩

theorem entries_of_lines {u : Unicode} (es es' : List (Str × Str × Forest)) (hes : ∀ e ∈ es, Entry u e.1 e.2.1 e.2.2)
    (hes' : ∀ e ∈ es', Entry u e.1 e.2.1 e.2.2) (h : entryLines es = entryLines es') :
    es = es' ∨ Absorbed es es' ∨ Absorbed es' es := by
  induction es generalizing es' with
  | nil =>
    cases es' with
    | nil => exact .inl rfl
    | cons e es' =>
      obtain ⟨key, line, c⟩ := e
      rw [entryLines_cons] at h
      simp [entryLines, Forest.ofEntries] at h
  | cons e es ih =>
    cases es' with
    | nil =>
      obtain ⟨key, line, c⟩ := e
      rw [entryLines_cons] at h
      simp [entryLines, Forest.ofEntries] at h
    | cons e' es' =>
      obtain ⟨key, line, c⟩ := e
      obtain ⟨key', line', c'⟩ := e'
      have hentry := hes (key, line, c) (by simp)
      have hentry' := hes' (key', line', c') (by simp)
      dsimp only at hentry hentry'
      simp only [entryLines_cons, renderLine, List.append_assoc, List.cons_append] at h
      obtain ⟨rfl, hbehind⟩ := split_first_inj (Entry.no_newline hentry) (Entry.no_newline hentry') (digits_bar_inj h).2
      have htails : entryLines es = entryLines es' → es = es' ∨ Absorbed es es' ∨ Absorbed es' es :=
        ih es' (fun e he => hes e (List.mem_cons_of_mem _ he)) (fun e he => hes' e (List.mem_cons_of_mem _ he))
      have hcons : ∀ e, entryLines es = entryLines es' → e :: es = e :: es' ∨ Absorbed (e :: es) (e :: es') ∨
          Absorbed (e :: es') (e :: es) := by
        intro e hlines
        rcases htails hlines with rfl | h | h
        · exact .inl rfl
        · exact .inr (.inl (h.cons e))
        · exact .inr (.inr (h.cons e))
      cases hentry with
      | line _ _ hbanner hline hchildren =>
        cases hentry' with
        | line _ _ _ _ hchildren' =>
          obtain ⟨rfl, hrest⟩ := serial_inj (plain_keyed hchildren) (plain_keyed hchildren') (after_entryLines es)
            (after_entryLines es') hbehind
          exact hcons _ hrest
        | banner kind _ _ _ =>
          rw [isBanner_bannerKey] at hbanner
          exact absurd hbanner (by simp)
      | banner kind text hkind htext =>
        obtain rfl := hentry'.key_eq
        obtain ⟨-, -, text', rfl, -⟩ := hentry'.of_banner
        simp only [serial_banner, renderLine, List.append_assoc, List.cons_append, List.nil_append] at hbehind
        have htexts := (digits_bar_inj hbehind).2
        rw [List.append_eq_append_iff] at htexts
        rcases htexts with ⟨m, rfl, hm⟩ | ⟨m, rfl, hm⟩
        · cases m with
          | nil =>
            rw [List.append_nil]
            exact hcons _ (List.cons.inj hm).2
          | cons c more =>
            obtain ⟨rfl, hlines⟩ := List.cons.inj hm
            exact .inr (.inl ⟨[], kind, text, more, es, es', rfl, rfl, hlines⟩)
        · cases m with
          | nil =>
            rw [List.append_nil]
            exact hcons _ (List.cons.inj hm).2.symm
          | cons c more =>
            obtain ⟨rfl, hlines⟩ := List.cons.inj hm
            exact .inr (.inr ⟨[], kind, text', more, es', es, rfl, rfl, hlines⟩)

/-- Two parsed trees have one body if and only if they are equal or one absorbs entries of the other. -/
theorem cisco_body_iff (u : Unicode) (t₁ t₂ : Str) :
    treeBody (parse_cisco u t₁) = treeBody (parse_cisco u t₂) ↔
      parse_cisco u t₁ = parse_cisco u t₂ ∨ Absorbed (parse_cisco u t₁).entries (parse_cisco u t₂).entries ∨
        Absorbed (parse_cisco u t₂).entries (parse_cisco u t₁).entries := by
  have hlines (f : Forest) : entryLines f.entries = serial 0 f := by rw [entryLines, Forest.ofEntries_entries]
  rw [treeBody_eq_iff, ← hlines, ← hlines]
  constructor
  · intro h
    rcases entries_of_lines _ _ (parse_shaped u t₁).entry (parse_shaped u t₂).entry h with h | h
    · refine .inl ?_
      rw [← Forest.ofEntries_entries (parse_cisco u t₁), h, Forest.ofEntries_entries]
    · exact .inr h
  · rintro (h | h | h)
    · rw [h]
    · exact h.lines
    · exact h.lines.symm

/-! ## What a fingerprint tells -/

theorem encode_inj {s t : Str} (h : encode (String.ofList s) = encode (String.ofList t)) : s = t := by
  have hdecode := congrArg decode h
  rw [decode_encode, decode_encode] at hdecode
  exact String.ofList_injective (Option.some.inj hdecode)

section

variable {F : Type} {u : Unicode} {lib : Library F}

theorem body_of_fingerprint {family t₁ t₂ h : Str} (hsha : NoCollision u lib family) (h₁ : fingerprint u lib family t₁ = some h)
    (h₂ : fingerprint u lib family t₂ = some h) : ∃ s, body u lib family t₁ = some s ∧ body u lib family t₂ = some s := by
  obtain ⟨s₁, hs₁, rfl⟩ := Option.map_eq_some_iff.mp h₁
  obtain ⟨s₂, hs₂, hhash⟩ := Option.map_eq_some_iff.mp h₂
  have hbytes := hsha ⟨t₂, s₂, hs₂, rfl⟩ ⟨t₁, s₁, hs₁, rfl⟩ hhash
  obtain rfl := encode_inj hbytes
  exact ⟨s₂, hs₁, hs₂⟩

theorem fingerprint_cisco (t : Str) :
    fingerprint u lib (lit "cisco") t = some (lib.sha256 (encode (String.ofList (treeBody (parse_cisco u t))))) := by
  rw [fingerprint, body, if_pos rfl]
  rfl

/-- Equal fingerprints mean equal configurations, if and only if no banner of Cisco has absorbed entries. -/
theorem fingerprint_tells_iff (family t₁ t₂ : Str) (hsha : NoCollision u lib family) :
    (∀ h, fingerprint u lib family t₁ = some h → fingerprint u lib family t₂ = some h → SameParsed u family t₁ t₂) ↔
      ¬ (family = lit "cisco" ∧ (Absorbed (parse_cisco u t₁).entries (parse_cisco u t₂).entries ∨
        Absorbed (parse_cisco u t₂).entries (parse_cisco u t₁).entries)) := by
  have hne : lit "fortinet" ≠ lit "cisco" := by with_unfolding_all decide
  by_cases hcisco : family = lit "cisco"
  · subst hcisco
    have hbody (t : Str) : body u lib (lit "cisco") t = some (treeBody (parse_cisco u t)) := if_pos rfl
    rw [SameParsed, if_pos rfl]
    constructor
    · rintro h ⟨-, habsorbed⟩
      have hsame := (cisco_body_iff u t₁ t₂).mpr (.inr habsorbed)
      have heq := h _ (fingerprint_cisco t₁) (by rw [fingerprint_cisco, hsame])
      rcases habsorbed with habsorbed | habsorbed
      · exact habsorbed.ne (by rw [heq])
      · exact habsorbed.ne (by rw [heq])
    · intro hnot h h₁ h₂
      obtain ⟨s, hs₁, hs₂⟩ := body_of_fingerprint hsha h₁ h₂
      rw [hbody] at hs₁ hs₂
      rcases (cisco_body_iff u t₁ t₂).mp (Option.some.inj (hs₁.trans hs₂.symm)) with heq | habsorbed
      · exact heq
      · exact absurd ⟨rfl, habsorbed⟩ hnot
  · simp only [hcisco, false_and, not_false_eq_true, iff_true]
    intro h h₁ h₂
    obtain ⟨s, hs₁, hs₂⟩ := body_of_fingerprint hsha h₁ h₂
    rw [SameParsed, if_neg hcisco]
    rw [body, if_neg hcisco] at hs₁ hs₂
    by_cases hforti : family = lit "fortinet"
    · rw [if_pos hforti] at hs₁ hs₂ ⊢
      obtain ⟨f, hf, rfl⟩ := Option.map_eq_some_iff.mp hs₁
      obtain ⟨g, hg, hbody⟩ := Option.map_eq_some_iff.mp hs₂
      rw [hf, hg, fortios_inj hf hg hbody.symm]
    · rw [if_neg hforti] at hs₁ hs₂ ⊢
      exact files_inj lib.floats (nodup_parse_bundle t₁) (nodup_parse_bundle t₂) (Option.some.inj (hs₁.trans hs₂.symm))

end

/-- Hashes that are the bytes themselves, and one number -/
def plain : Library Unit where
  sha256 bytes := bytes.map fun b => Char.ofNat b.toNat
  floats :=
    { dump := fun _ => ['0', '.', '0']
      load := fun _ => ()
      dump_text := Json.floatText_zero
      load_dump := fun _ => rfl }

theorem noCollision_plain (family : Str) : NoCollision ascii plain family := by
  have hinj : Function.Injective plain.sha256 := by
    refine Function.LeftInverse.injective (g := fun s => s.map fun c => UInt8.ofNat c.toNat) fun bytes => ?_
    simp [plain, byte_of_char, Function.comp_def]
  exact hinj.injOn

theorem empty_fingerprint_tells :
    (∀ h, fingerprint ascii plain (lit "cisco") [] = some h → fingerprint ascii plain (lit "cisco") [] = some h →
      SameParsed ascii (lit "cisco") [] []) ↔
      ¬ (lit "cisco" = lit "cisco" ∧ (Absorbed (parse_cisco ascii []).entries (parse_cisco ascii []).entries ∨
        Absorbed (parse_cisco ascii []).entries (parse_cisco ascii []).entries)) :=
  fingerprint_tells_iff (lit "cisco") [] [] (noCollision_plain (lit "cisco"))

/-- A banner, and the name of the device -/
def reviewed : Str := lit "banner motd ^Chello^C\nhostname R1\n"

/-- The banner has the line of the name in its text, and the name is gone. -/
def live : Str := lit "banner motd ^Chello\n0|hostname R1^C\n"

theorem banner_hides_hostname :
    ∃ h, fingerprint ascii plain (lit "cisco") reviewed = some h ∧ fingerprint ascii plain (lit "cisco") live = some h ∧
      ¬ SameParsed ascii (lit "cisco") reviewed live := by
  have hbody : treeBody (parse_cisco ascii reviewed) = treeBody (parse_cisco ascii live) := by
    with_unfolding_all decide
  have hparsed : parse_cisco ascii reviewed ≠ parse_cisco ascii live := by with_unfolding_all decide
  refine ⟨_, fingerprint_cisco reviewed, ?_, ?_⟩
  · rw [fingerprint_cisco, hbody]
  · rw [SameParsed, if_pos rfl]
    exact hparsed

end Fingerprint
