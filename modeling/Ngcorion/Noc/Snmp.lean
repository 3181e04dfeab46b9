import Ngcorion.Text
import Ngcorion.Dict

/-!
# Tables read over SNMP

A walk gives the rows of a table as pairs of an object identifier and a value, or fails
as a whole. A device that does not have a table answers with an error of its own, which
does not count.
-/
namespace Snmp

open Text

/-- The numbers of an object identifier. -/
abbrev Oid := List Nat

variable {V : Type}

/-- What the code takes out of a value that a device answers with. -/
structure Reader (V : Type) where
  asInt : V → Option Int
  text : V → Option Str
  ipv4 : V → Option Str
  normalizeMac : V → Option Str
  /-- A network address of five octets, the first one the address family of IPv4. -/
  networkAddress : V → Option Str

abbrev VarBinds (V : Type) := List (Oid × V)

/-- A walk that fails gives the name of its exception. -/
abbrev Walk (V : Type) := Except Str (VarBinds V)

/-- `_suffix` -/
def suffix (oid base : Oid) : Option (List Nat) :=
  if base.isPrefixOf oid && base.length < oid.length then some (oid.drop base.length) else none

/-- The rows of a table, none when it failed. -/
def rows (w : Walk V) : VarBinds V :=
  match w with
  | .ok rows => rows
  | .error _ => []

/-- The entry for a table that failed. -/
def failure (name : Str) (w : Walk V) : List (Str × Str) :=
  match w with
  | .ok _ => []
  | .error type => [(name, type)]

/-- A device without the table is no error. -/
def missingTable (e : Str × Str) : Bool :=
  contains (lit "NoSuchOID") (e.1 ++ lit ": " ++ e.2) || contains (lit "EndOfMib") (e.1 ++ lit ": " ++ e.2)

/-- The errors of a device that are kept. -/
def kept (errors : List (Str × Str)) : List (Str × Str) := errors.filter (fun e => !missingTable e)

/-- The texts of errors. -/
def errorText (errors : List (Str × Str)) : Str := join (lit "; ") (errors.map (fun e => e.1 ++ lit ": " ++ e.2))

/-- `_columns`: for each index the values of its columns. -/
def columns (vbs : VarBinds V) (base : Oid) (indexLen : Nat) : List (List Nat × List (Nat × V)) :=
  vbs.foldl (fun out vb =>
    match suffix vb.1 base with
    | some (column :: index) =>
      if index.length = indexLen then
        Dict.set out index (Dict.set ((Dict.get out index).getD []) column vb.2)
      else out
    | _ => out) []

end Snmp
