import Ngcorion.Backup.CiscoConverge

/-!
# Order in an IOS comparison

Entries of an access list are evaluated in their order. The comparison of two
configurations looks lines up by their text, so a configuration whose entries
are in another order compares as equal.
-/
namespace CiscoOrder

open Text ConfigTree CiscoIOS CiscoCompare CiscoConverge

def isAccessList (key : Str) : Bool := startsWith (lit "ip access-list ") key

def isEntry (key : Str) : Bool := startsWith (lit "permit ") key || startsWith (lit "deny ") key

/-- The entries of an access list scope, in order. -/
def aclEntries (f : Forest) : List Str := f.keys.filter isEntry

/-- The global lines of one numbered access list, in order. -/
def numberedEntries (n : Str) (f : Forest) : List Str :=
  f.keys.filter (fun key => startsWith (lit "access-list " ++ n ++ [' ']) key)

/-- The lines whose order matters are in the same order on both sides. -/
structure OrderKept (b l : Forest) : Prop where
  numbered : ∀ n, numberedEntries n b = numberedEntries n l
  scopes : ∀ path key f g, isAccessList key = true → b.atPath (path ++ [key]) = some f →
    l.atPath (path ++ [key]) = some g → aclEntries f = aclEntries g

/-- The same lines in the same scopes, but some that are evaluated in order in another order. -/
def Reordered (b l : Forest) : Prop := SameTree b l ∧ ¬ OrderKept b l

/-- An empty comparison says that the order is kept exactly when the live
configuration is not the backup reordered. -/
theorem order_seen_iff (u : Unicode) (backup_text live_text : Str)
    (hb : ordinary u (parse_cisco u backup_text) = true) (hl : ordinary u (parse_cisco u live_text) = true) :
    ((diff_cisco u backup_text live_text).is_empty = true →
      OrderKept (parse_cisco u backup_text) (parse_cisco u live_text)) ↔
    ¬ Reordered (parse_cisco u backup_text) (parse_cisco u live_text) := by
  have hsame := is_empty_iff_sameTree (every_plain (parse_ok u backup_text) hb)
    (noChains_of_plain (every_plain (parse_ok u live_text) hl))
  have hempty : (diff_cisco u backup_text live_text).is_empty =
      (_cisco_diff u (parse_cisco u backup_text) (parse_cisco u live_text) [] .empty).2.is_empty := rfl
  rw [hempty, hsame, Reordered, not_and_not_right]

def aclBackup : Str := lit "ip access-list extended EDGE\n permit tcp any host 10.0.0.5 eq 22\n deny ip any any"

def aclReordered : Str := lit "ip access-list extended EDGE\n deny ip any any\n permit tcp any host 10.0.0.5 eq 22"

def aclChanged : Str := lit "ip access-list extended EDGE\n deny ip any any"

/-- A missing entry is seen. -/
theorem missing_entry_not_reordered : ¬ Reordered (parse_cisco ascii aclBackup) (parse_cisco ascii aclChanged) :=
  (order_seen_iff ascii aclBackup aclChanged (by with_unfolding_all decide) (by with_unfolding_all decide)).mp
    (fun h => absurd h (by with_unfolding_all decide))

def permitEntry : Str := lit "permit tcp any host 10.0.0.5 eq 22"

def denyEntry : Str := lit "deny ip any any"

/-- An access list that denies everything first compares as equal to one that permits first. -/
theorem reordered_list_accepted :
    ordinary ascii (parse_cisco ascii aclBackup) = true ∧ ordinary ascii (parse_cisco ascii aclReordered) = true ∧
    ¬ ((diff_cisco ascii aclBackup aclReordered).is_empty = true →
      OrderKept (parse_cisco ascii aclBackup) (parse_cisco ascii aclReordered)) := by
  refine ⟨by with_unfolding_all decide, by with_unfolding_all decide, ?_⟩
  intro h
  have hkept := h (by with_unfolding_all decide)
  have hentries := hkept.scopes [] (lit "ip access-list extended EDGE")
    (.cons permitEntry permitEntry .nil (.cons denyEntry denyEntry .nil .nil))
    (.cons denyEntry denyEntry .nil (.cons permitEntry permitEntry .nil .nil))
    (by with_unfolding_all decide) (by with_unfolding_all decide) (by with_unfolding_all decide)
  exact absurd hentries (by with_unfolding_all decide)

end CiscoOrder
