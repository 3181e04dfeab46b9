import Ngcorion.Nginx.Conf
import Ngcorion.BlockGrammar

/-!
# The grammar of a configuration file

Without the Lua blocks `parse_file` is the machine of the block grammar: it accepts the token lists of the grammar, its
tree prints as the tokens less the empty statements, and each directive's parent is the block around it.
-/
namespace NginxGrammar

open Text NginxConf BlockGrammar

/-- What the parser reads a token as -/
def sym (t : Token) : Sym Str :=
  if t.quoted then .word t.text
  else if t.text = [';'] then .semi
  else if t.text = ['{'] then .opening
  else if t.text = ['}'] then .closing
  else .word t.text

/-- No block has a name that ends with `_by_lua_block`. The first argument is the first pending word. -/
def LuaFree : Option Str → List (Sym Str) → Prop
  | _, [] => True
  | first, .word w :: rest => LuaFree (first.or (some w)) rest
  | first, .opening :: rest => (∀ name, first = some name → luaBlock.isSuffixOf name = false) ∧ LuaFree none rest
  | _, .semi :: rest => LuaFree none rest
  | _, .closing :: rest => LuaFree none rest

/-! ## The parser as the machine -/

mutual

/-- A directive as a tree of words: its name, its arguments and its children -/
def erase : Directive → BlockGrammar.Tree Str
  | .simple h => .simple (h.name :: h.args)
  | .block h children _ => .block (h.name :: h.args) (eraseAll children)

def eraseAll : List Directive → List (BlockGrammar.Tree Str)
  | [] => []
  | d :: ds => erase d :: eraseAll ds

end

@[simp] theorem eraseAll_append (a b : List Directive) : eraseAll (a ++ b) = eraseAll a ++ eraseAll b := by
  induction a with
  | nil => simp [eraseAll]
  | cons d a ih => simp [eraseAll, ih]

def machine (p : Parser) : State Str :=
  ⟨p.above.map fun b => (b.1.name :: b.1.args, eraseAll b.2), eraseAll p.sink, p.words.map (·.1)⟩

/-- The trees of a state at the end of the tokens -/
def finish (s : State Str) : Option (List (BlockGrammar.Tree Str)) := if s.words = [] ∧ s.above = [] then some s.sink else none

theorem sym_semi {t : Token} (h : ¬ t.quoted ∧ t.text = [';']) : sym t = .semi := by
  simp [sym, h]

theorem sym_opening {t : Token} (h : ¬ t.quoted ∧ t.text = ['{']) : sym t = .opening := by
  simp [sym, h]

theorem sym_closing {t : Token} (h : ¬ t.quoted ∧ t.text = ['}']) : sym t = .closing := by
  simp [sym, h]

theorem sym_word {t : Token} (h₁ : ¬ (¬ t.quoted ∧ t.text = [';'])) (h₂ : ¬ (¬ t.quoted ∧ t.text = ['{']))
    (h₃ : ¬ (¬ t.quoted ∧ t.text = ['}'])) : sym t = .word t.text := by
  unfold sym
  by_cases hq : t.quoted <;> simp_all

/-- What `parse_file` accepts from a state on, and the trees it builds, are those of the machine. -/
theorem parseLoop_machine (path : Str) (p : Parser) (ts : List Token)
    (hlua : LuaFree (p.words.head?.map (·.1)) (ts.map sym)) :
    (parseLoop path none p ts).toOption.map eraseAll = (run (machine p) (ts.map sym)).bind finish := by
  fun_induction parseLoop path none p ts with
  | case1 p e h => cases h
  | case2 p _ h =>
    have : ¬ (p.words = [] ∧ p.above = []) := by tauto
    simp [finish, machine, Except.toOption, this]
  | case3 p _ h =>
    have : p.words = [] ∧ p.above = [] := by tauto
    simp [finish, machine, Except.toOption, this]
  | case4 p tok rest hsep hw ih =>
    rw [List.map_cons, sym_semi hsep, LuaFree] at hlua
    have hstep : step (machine p) .semi = some (machine p) := by simp [step, machine, hw]
    rw [List.map_cons, sym_semi hsep, run, hstep, ih (by simpa [hw] using hlua), Option.bind_some]
  | case5 p tok rest hsep w ws hw ih =>
    rw [List.map_cons, sym_semi hsep, LuaFree] at hlua
    rw [List.map_cons, sym_semi hsep, run, ih hlua]
    simp [step, machine, hw, eraseAll, erase, Parser.directive]
  | case6 p tok rest _ hsep hw => simp [sym_opening hsep, run, step, machine, hw, Except.toOption]
  | case7 p tok rest _ hsep w ws hw hname =>
    rw [List.map_cons, sym_opening hsep, LuaFree] at hlua
    simp [hlua.1 w.1 (by simp [hw])] at hname
  | case8 p tok rest _ hsep w ws hw hname =>
    rw [List.map_cons, sym_opening hsep, LuaFree] at hlua
    simp [hlua.1 w.1 (by simp [hw])] at hname
  | case9 p tok rest _ hsep w ws hw _ ih =>
    rw [List.map_cons, sym_opening hsep, LuaFree] at hlua
    rw [List.map_cons, sym_opening hsep, run, ih hlua.2]
    simp [step, machine, hw, eraseAll, Parser.directive]
  | case10 p tok rest _ _ hsep hw => simp [sym_closing hsep, run, step, machine, hw, Except.toOption]
  | case11 p tok rest _ _ hsep hw ha =>
    have hw : p.words = [] := by simpa using hw
    simp [sym_closing hsep, run, step, machine, hw, ha, Except.toOption]
  | case12 p tok rest _ _ hsep hw block before above ha ih =>
    have hw : p.words = [] := by simpa using hw
    rw [List.map_cons, sym_closing hsep, LuaFree] at hlua
    rw [List.map_cons, sym_closing hsep, run, ih (by simpa [hw] using hlua)]
    simp [step, machine, hw, ha, eraseAll, erase]
  | case13 p tok rest h₁ h₂ h₃ ih =>
    rw [List.map_cons, sym_word h₁ h₂ h₃, LuaFree] at hlua
    have hfirst : ((p.words ++ [(tok.text, tok.line)]).head?.map (·.1)) = (p.words.head?.map (·.1)).or (some tok.text) := by
      cases p.words <;> rfl
    rw [← hfirst] at hlua
    rw [List.map_cons, sym_word h₁ h₂ h₃, run, ih hlua]
    simp [step, machine]

/-! ## Parents -/

mutual

/-- The directive has that parent, and so have its children it. -/
def Parented (parent : Option Nat) : Directive → Prop
  | .simple h => h.parent = parent
  | .block h children _ => h.parent = parent ∧ AllParented (some h.id) children

def AllParented (parent : Option Nat) : List Directive → Prop
  | [] => True
  | d :: ds => Parented parent d ∧ AllParented parent ds

end

mutual

/-- The objects of a directive, the block before its children -/
def ids : Directive → List Nat
  | .simple h => [h.id]
  | .block h children _ => h.id :: allIds children

def allIds : List Directive → List Nat
  | [] => []
  | d :: ds => ids d ++ allIds ds

end

theorem allParented_append (parent : Option Nat) (a b : List Directive) :
    AllParented parent (a ++ b) ↔ AllParented parent a ∧ AllParented parent b := by
  induction a with
  | nil => simp [AllParented]
  | cons d a ih => simp [AllParented, ih, and_assoc]

theorem allIds_append (a b : List Directive) : allIds (a ++ b) = allIds a ++ allIds b := by
  induction a with
  | nil => simp [allIds]
  | cons d a ih => simp [allIds, ih]

/-- The parent links of the open blocks and of what stands before them -/
def Linked : List (Header × List Directive) → Prop
  | [] => True
  | b :: above => b.1.parent = above.head?.map (·.1.id) ∧ AllParented (above.head?.map (·.1.id)) b.2 ∧ Linked above

/-- The objects of the open blocks, the outermost first -/
def openIds : List (Header × List Directive) → List Nat
  | [] => []
  | b :: above => openIds above ++ allIds b.2 ++ [b.1.id]

/-- The objects are numbered in the order of the text, and each is linked to the block it was opened in. -/
structure Placed (p : Parser) : Prop where
  linked : Linked p.above
  sink : AllParented (p.above.head?.map (·.1.id)) p.sink
  numbered : openIds p.above ++ allIds p.sink = List.range p.next

theorem placed_start : Placed .start := ⟨trivial, trivial, rfl⟩

theorem parseLoop_placed {path : Str} {failed : Option Str} {p : Parser} {ts : List Token} {ds : List Directive}
    (hp : Placed p) (h : parseLoop path failed p ts = .ok ds) :
    AllParented none ds ∧ ∃ n, allIds ds = List.range n := by
  fun_induction parseLoop path failed p ts with
  | case1 => cases h
  | case2 => cases h
  | case3 p _ hend =>
    have ha : p.above = [] := by tauto
    cases h
    exact ⟨by simpa [ha] using hp.sink, p.next, by simpa [ha, openIds] using hp.numbered⟩
  | case4 p tok rest _ _ ih => exact ih hp h
  | case5 p tok rest _ w ws _ ih =>
    refine ih ⟨hp.linked, ?_, ?_⟩ h
    · exact (allParented_append ..).mpr ⟨hp.sink, by simp [AllParented, Parented, Parser.directive]⟩
    · simp [allIds_append, allIds, ids, Parser.directive, List.range_succ, ← hp.numbered]
  | case6 => cases h
  | case7 => cases h
  | case8 p tok rest _ _ w ws _ _ close_line rest' _ ih =>
    refine ih ⟨hp.linked, ?_, ?_⟩ h
    · exact (allParented_append ..).mpr ⟨hp.sink, by simp [AllParented, Parented, Parser.directive]⟩
    · simp [allIds_append, allIds, ids, Parser.directive, List.range_succ, ← hp.numbered]
  | case9 p tok rest _ _ w ws _ _ ih =>
    refine ih ⟨⟨rfl, hp.sink, hp.linked⟩, trivial, ?_⟩ h
    simp [openIds, allIds, Parser.directive, List.range_succ, ← hp.numbered]
  | case10 => cases h
  | case11 => cases h
  | case12 p tok rest _ _ _ _ block before above ha ih =>
    have hlinked := hp.linked
    have hsink := hp.sink
    have hnum := hp.numbered
    rw [ha] at hlinked hsink hnum
    refine ih ⟨hlinked.2.2, ?_, ?_⟩ h
    · exact (allParented_append ..).mpr ⟨hlinked.2.1, ⟨hlinked.1, hsink⟩, trivial⟩
    · simpa [allIds_append, allIds, ids, openIds] using hnum
  | case13 p tok rest _ _ _ ih => exact ih ⟨hp.linked, hp.sink, hp.numbered⟩ h

/-! ## The parser -/

/-- The parser accepts the grammar. What it builds prints as the tokens less the empty statements; every directive's
parent is the block that encloses it, none at the top, and no two directives are one object. -/
theorem parse_file_grammar (path : Str) (ts : List Token) (hlua : LuaFree none (ts.map sym)) :
    ((∃ ds, parseLoop path none .start ts = .ok ds) ↔ Config (ts.map sym)) ∧
      ∀ ds, parseLoop path none .start ts = .ok ds →
        printAll (eraseAll ds) = dropEmpty false (ts.map sym) ∧ AllParented none ds ∧ (allIds ds).Nodup := by
  have hmachine : (parseLoop path none .start ts).toOption.map eraseAll = accept (ts.map sym) :=
    parseLoop_machine path .start ts hlua
  refine ⟨?_, fun ds hds => ?_⟩
  · rw [← accept_iff, ← hmachine]
    cases parseLoop path none .start ts <;> simp [Except.toOption]
  · rw [hds] at hmachine
    obtain ⟨hparents, n, hids⟩ := parseLoop_placed placed_start hds
    exact ⟨accept_print hmachine.symm, hparents, hids ▸ List.nodup_range⟩

theorem parse_file_grammar_nested :
    ∃ ds, parseLoop [] none .start (tokenize (lit "a \x7b ; b '\x7b'; \x7d")).1 = .ok ds ∧
      printAll (eraseAll ds) = [.word (lit "a"), .opening, .word (lit "b"), .word (lit "\x7b"), .semi, .closing] := by
  have hts : (tokenize (lit "a \x7b ; b '\x7b'; \x7d")).1.map sym =
      [.word (lit "a"), .opening, .semi, .word (lit "b"), .word (lit "\x7b"), .semi, .closing] := by
        with_unfolding_all decide
  have h := parse_file_grammar [] (tokenize (lit "a \x7b ; b '\x7b'; \x7d")).1 (by
    rw [hts]; simp [LuaFree]; with_unfolding_all decide)
  rw [hts] at h
  obtain ⟨ds, hds⟩ := h.1.mpr ((accept_iff _).mp ⟨_, rfl⟩)
  exact ⟨ds, hds, (h.2 ds hds).1⟩

end NginxGrammar
