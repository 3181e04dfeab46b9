import Ngcorion.LocalTime

/-!
# Times in a zone whose offset changes

A zone has an offset from each of its transitions on. A local time that the clock reads twice is told apart by its fold; one
that it skips is taken with the offset before or after the jump. Times are those of `LocalTime`.
-/
namespace ZoneInfo

open LocalTime

structure Zone where
  /-- The offset before the first transition -/
  first : Int
  /-- When the offset changes, in order, and the offset from then on -/
  transitions : List (Int × Int)

def Zone.utcoffset (z : Zone) (u : Int) : Int := z.transitions.foldl (fun o tr => if tr.1 ≤ u then tr.2 else o) z.first

/-- What the clock of the zone reads -/
def Zone.read (z : Zone) (u : Int) : Int := u + z.utcoffset u

def Zone.offsets (z : Zone) : List Int := z.first :: z.transitions.map Prod.snd

/-- The moments at which the clock reads a local time -/
def Zone.moments (z : Zone) (t : Int) : List Int := (z.offsets.map (t - ·)).filter fun u => z.read u = t

/-- The clock has read the same time before. -/
def Zone.fold (z : Zone) (u : Int) : Bool := (z.moments (z.read u)).any (· < u)

/-- A transition that skips a local time -/
def Zone.skips (z : Zone) (t : Int) (tr : Int × Int) : Bool :=
  tr.1 + z.utcoffset (tr.1 - 1) ≤ t && t < z.read tr.1

def Zone.toutc (z : Zone) (t : Int) (fold : Bool) : Int :=
  match (z.moments t).min?, (z.moments t).max? with
  | some first, some last => if fold then last else first
  | _, _ =>
    match z.transitions.find? (z.skips t) with
    | some tr => t - z.utcoffset (if fold then tr.1 else tr.1 - 1)
    | none => t - z.first

/-- The days from a day on begin at this moment: the clock does not go back over the midnight. -/
def Zone.Starts (z : Zone) (n start : Int) : Prop := ∀ u, start ≤ u ↔ n ≤ dateOf (z.read u)

theorem utcoffset_mem (z : Zone) (u : Int) : z.utcoffset u ∈ z.offsets := by
  obtain ⟨first, transitions⟩ := z
  unfold Zone.utcoffset Zone.offsets
  induction transitions generalizing first with
  | nil => simp
  | cons tr transitions ih =>
    rw [List.foldl_cons]
    have := ih (if tr.1 ≤ u then tr.2 else first)
    dsimp only at this ⊢
    rcases List.mem_cons.mp this with h | h
    · rw [h]
      split <;> simp
    · exact List.mem_cons_of_mem _ (List.mem_cons_of_mem _ h)

theorem mem_moments {z : Zone} {t u : Int} : u ∈ z.moments t ↔ z.read u = t := by
  unfold Zone.moments
  rw [List.mem_filter, decide_eq_true_eq]
  constructor
  · exact And.right
  · intro h
    refine ⟨?_, h⟩
    rw [List.mem_map]
    refine ⟨z.utcoffset u, utcoffset_mem z u, ?_⟩
    unfold Zone.read at h
    omega

/-- The offset changes at transitions only. -/
theorem transition_of_change {z : Zone} {u : Int} (h : z.utcoffset u ≠ z.utcoffset (u - 1)) :
    ∃ tr ∈ z.transitions, tr.1 = u := by
  obtain ⟨first, transitions⟩ := z
  by_contra hnone
  have hno : ∀ tr ∈ transitions, tr.1 ≠ u := fun tr htr he => hnone ⟨tr, htr, he⟩
  apply h
  unfold Zone.utcoffset
  dsimp only
  clear h hnone
  induction transitions generalizing first with
  | nil => rfl
  | cons tr transitions ih =>
    have htr := hno tr List.mem_cons_self
    have hsame : (if tr.1 ≤ u then tr.2 else first) = if tr.1 ≤ u - 1 then tr.2 else first := by
      split_ifs <;> omega
    rw [List.foldl_cons, List.foldl_cons, hsame]
    exact ih _ (fun tr' h' => hno tr' (List.mem_cons_of_mem _ h'))

theorem dateOf_midnight (n : Int) : dateOf (midnight n) = n := by
  unfold dateOf midnight day hour minute
  omega

/-- A time that the clock reads at one moment only -/
theorem toutc_once {z : Zone} {t u : Int} (h : z.read u = t) (honce : ∀ v, z.read v = t → v = u) (fold : Bool) :
    z.toutc t fold = u := by
  have hmem := mem_moments.mpr h
  have hall : ∀ v ∈ z.moments t, v = u := fun v hv => honce v (mem_moments.mp hv)
  have hmin : (z.moments t).min? = some u := List.min?_eq_some_iff.mpr ⟨hmem, fun v hv => Int.le_of_eq (hall v hv).symm⟩
  have hmax : (z.moments t).max? = some u := List.max?_eq_some_iff.mpr ⟨hmem, fun v hv => Int.le_of_eq (hall v hv)⟩
  rw [Zone.toutc, hmin, hmax]
  cases fold <;> rfl

/-- The first of the moments at which the clock reads a midnight -/
theorem toutc_first {z : Zone} {n start : Int} (hstarts : z.Starts n start) (h : z.read start = midnight n) :
    z.toutc (midnight n) false = start := by
  have hmem := mem_moments.mpr h
  have hmin : (z.moments (midnight n)).min? = some start := by
    refine List.min?_eq_some_iff.mpr ⟨hmem, fun v hv => ?_⟩
    rw [hstarts, mem_moments.mp hv]
    exact Int.le_of_eq (dateOf_midnight n).symm
  obtain ⟨last, hlast⟩ : ∃ last, (z.moments (midnight n)).max? = some last := by
    cases hmax : (z.moments (midnight n)).max? with
    | none =>
      rw [List.max?_eq_none_iff] at hmax
      rw [hmax] at hmem
      cases hmem
    | some last => exact ⟨last, rfl⟩
  rw [Zone.toutc, hmin, hlast]
  rfl

/-- A midnight that the clock jumps over as it comes -/
theorem toutc_skipped {z : Zone} {n start : Int} (hstarts : z.Starts n start) (hnever : ∀ v, z.read v ≠ midnight n)
    (h : start + z.utcoffset (start - 1) = midnight n) : z.toutc (midnight n) false = start := by
  have hempty : z.moments (midnight n) = [] := by
    rw [List.eq_nil_iff_forall_not_mem]
    exact fun v hv => hnever v (mem_moments.mp hv)
  have hchange : z.utcoffset start ≠ z.utcoffset (start - 1) := by
    intro he
    apply hnever start
    rw [Zone.read, he, h]
  obtain ⟨tr, htr, hat⟩ := transition_of_change hchange
  have hdate := (hstarts start).mp (Int.le_refl _)
  rw [dateOf_le_iff] at hdate
  have hskips : z.skips (midnight n) tr = true := by
    have := hnever start
    unfold Zone.skips
    rw [hat, Bool.and_eq_true, decide_eq_true_eq, decide_eq_true_eq]
    omega
  obtain ⟨found, hfound⟩ := Option.isSome_iff_exists.mp (List.find?_isSome.mpr ⟨tr, htr, hskips⟩)
  -- Any other transition that skips the midnight would begin the day too.
  have hsame : found.1 = start := by
    have hskip := List.find?_some hfound
    unfold Zone.skips at hskip
    rw [Bool.and_eq_true, decide_eq_true_eq, decide_eq_true_eq] at hskip
    have hafter : start ≤ found.1 := by
      rw [hstarts, dateOf_le_iff]
      omega
    have hbefore : ¬ start ≤ found.1 - 1 := by
      rw [hstarts, dateOf_le_iff, Zone.read]
      omega
    omega
  rw [Zone.toutc, hempty, hfound]
  simp only [List.min?_nil, List.max?_nil, Bool.false_eq_true, if_false]
  rw [hsame]
  omega

end ZoneInfo
