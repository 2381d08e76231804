import VersionDrift.Decimal.Scientific
import VersionDrift.Toml.Error

/-!
# Values of a settings text

A table remembers how it came to be, because that decides whether it may be
extended later, and it keeps its entries in the order of their keys.
`Value.modifyTable` follows a path of keys and creates the tables that are missing on
the way.
-/

set_option autoImplicit false

namespace VersionDrift.Toml

inductive Float where
  | nan
  | infinite (negative : Bool)
  | decimal (negative : Bool) (magnitude : Decimal.Scientific)
deriving DecidableEq, Repr

/-- How a table came to be: by a header of its own, by a longer header, by a dotted key, or by
braces. -/
inductive Origin where
  | header
  | implied
  | dotted
  | braces
deriving DecidableEq, Repr

inductive Value where
  | string (t : Text)
  | integer (n : Int)
  | float (x : Float)
  | boolean (b : Bool)
  | dateTime (t : Text)
  | array (ofTables : Bool) (items : List Value)
  | table (origin : Origin) (entries : List (Text × Value))
deriving Repr

abbrev Entries := List (Text × Value)

namespace Value

def setEntry (key : Text) (v : Value) : Entries → Entries
  | [] => [(key, v)]
  | (k, w) :: es =>
    if key = k then (k, v) :: es
    else if Text.precedes key k then (key, v) :: (k, w) :: es
    else (k, w) :: setEntry key v es

abbrev Change := Origin → Entries → Except Error (Origin × Entries)

/-- Changes the table that a path leads to. The path stands in a header, or before the last part of
a dotted key; a dotted key goes only through tables that no header has defined, and neither goes
through braces. -/
def modifyTable (byHeader : Bool) (f : Change) : List Text → Change
  | [], origin, es => f origin es
  | k :: ks, origin, es => do
    let inner (o : Origin) (below : Entries) : Except Error Value := do
      let (o, below) ← modifyTable byHeader f ks o below
      return .table o below
    match es.lookup k with
    | none =>
      return (origin, setEntry k (← inner (if byHeader then .implied else .dotted) []) es)
    | some (.table o below) =>
      if o = .braces || (!byHeader && o = .header) then throw .repeatedKey
      return (origin, setEntry k (← inner o below) es)
    | some (.array true items) =>
      match items.getLast? with
      | some (.table o below) =>
        let last ← inner o below
        return (origin, setEntry k (.array true (items.dropLast ++ [last])) es)
      | _ => throw .notATable
    | some _ => throw .notATable

/-- Adds a value to a table that its key may define: only a path of keys reaches a table that dotted
keys have made. -/
def addEntry (byPath : Bool) (key : Text) (v : Value) : Change := fun origin es =>
  if byPath != (origin = .dotted) || (es.lookup key).isSome then .error .repeatedKey
  else .ok (origin, setEntry key v es)

def addDotted (path : List Text) (key : Text) (v : Value) : Change :=
  modifyTable false (addEntry (!path.isEmpty) key v) path

/-- Defines the table of a header; only one that longer headers imply may be there already. -/
def openTable (key : Text) : Change := fun origin es =>
  match es.lookup key with
  | none => .ok (origin, setEntry key (.table .header []) es)
  | some (.table .implied below) => .ok (origin, setEntry key (.table .header below) es)
  | some _ => .error .repeatedKey

def openElement (key : Text) : Change := fun origin es =>
  match es.lookup key with
  | none => .ok (origin, setEntry key (.array true [.table .header []]) es)
  | some (.array true items) =>
    .ok (origin, setEntry key (.array true (items ++ [.table .header []])) es)
  | some _ => .error .repeatedKey

end Value
end VersionDrift.Toml
