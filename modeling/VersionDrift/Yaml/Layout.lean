import VersionDrift.Yaml.Cursor
import VersionDrift.Yaml.Token
import VersionDrift.Yaml.Error

/-!
# Layout

What the place of the next token decides: the columns of the open block
collections, the open flow collections, and the token that becomes a key if a
colon follows it. Such a key must lie on one line and be at most 1024 characters
long; outside flow collections it is required when it stands at the column of the
innermost block collection.
-/

set_option autoImplicit false

namespace VersionDrift.Yaml

/-- A place where a key may have begun, by the number of tokens before it. -/
structure PossibleKey where
  position : Nat
  required : Bool
  line : Nat
  column : Nat
deriving DecidableEq, Repr

/-- The columns of the open block collections and the possible keys around the open flow collections
stand with the innermost first, the tokens with the last one first. -/
structure Layout where
  cursor : Cursor
  columns : List Nat
  candidate : Option PossibleKey
  outer : List (Option PossibleKey)
  keyAllowed : Bool
  emitted : List Token

namespace Layout

def start (t : Text) : Layout := ⟨Cursor.start t, [], none, [], true, []⟩

def inFlow (s : Layout) : Bool := !s.outer.isEmpty

@[simp] theorem inFlow_eq_false_iff {s : Layout} : s.inFlow = false ↔ s.outer = [] := by
  simp [inFlow]

@[simp] theorem inFlow_eq_true_iff {s : Layout} : s.inFlow = true ↔ s.outer ≠ [] := by
  simp [inFlow]

def emit (t : Token) (s : Layout) : Layout := { s with emitted := t :: s.emitted }

/-- Puts a token where `position` tokens stand before it. -/
def insertAt (position : Nat) (t : Token) (s : Layout) : Layout :=
  let later := s.emitted.length - position
  { s with emitted := s.emitted.take later ++ t :: s.emitted.drop later }

/-- The column is to the right of the innermost block collection. -/
def deeper (column : Nat) (s : Layout) : Bool :=
  match s.columns with
  | [] => true
  | c :: _ => c < column

def openBlock (column position : Nat) (t : Token) (s : Layout) : Layout :=
  if !s.inFlow && s.deeper column then
    { s.insertAt position t with columns := column :: s.columns }
  else s

/-- The block collections left open at the column, and how many end before it. -/
def closedAt (column : Nat) : List Nat → List Nat × Nat
  | [] => ([], 0)
  | c :: cs => if column < c then let (r, n) := closedAt column cs; (r, n + 1) else (c :: cs, 0)

def closeTo (column : Nat) (s : Layout) : Layout :=
  if s.inFlow then s
  else
    let (columns, n) := closedAt column s.columns
    { s with columns := columns, emitted := List.replicate n .blockEnd ++ s.emitted }

def closeAll (s : Layout) : Layout :=
  if s.inFlow then s
  else
    { s with columns := [],
             emitted := List.replicate s.columns.length .blockEnd ++ s.emitted }

/-- A possible key that can no longer be one, for its line or its length. -/
def isStale (line column : Nat) (k : PossibleKey) : Bool :=
  k.line < line || k.column + 1024 < column

def dropStaleKey (line column : Nat) : Option PossibleKey → Except Error (Option PossibleKey)
  | none => .ok none
  | some k =>
    if isStale line column k then (if k.required then .error .missingColon else .ok none)
    else .ok (some k)

def dropStale (s : Layout) : Except Error Layout := do
  let line := s.cursor.line
  let column := s.cursor.column
  let outer ← s.outer.mapM (dropStaleKey line column)
  let candidate ← dropStaleKey line column s.candidate
  return { s with candidate := candidate, outer := outer }

def dropCandidate (s : Layout) : Except Error Layout :=
  match s.candidate with
  | some k => if k.required then .error .missingColon else .ok { s with candidate := none }
  | none => .ok s

/-- Notes that the token at the cursor may begin a key. -/
def noteCandidate (s : Layout) : Except Error Layout :=
  if s.keyAllowed then do
    let s ← s.dropCandidate
    let required := !s.inFlow && s.columns.head? = some s.cursor.column
    let key : PossibleKey := ⟨s.emitted.length, required, s.cursor.line, s.cursor.column⟩
    return { s with candidate := some key }
  else .ok s

def allowKey (b : Bool) (s : Layout) : Layout := { s with keyAllowed := b }

def take (n : Nat) (t : Token) (s : Layout) : Layout :=
  { s.emit t with cursor := s.cursor.skip n }

@[simp] theorem take_cursor (n : Nat) (t : Token) (s : Layout) :
    (s.take n t).cursor = s.cursor.skip n := rfl

def openFlow (s : Layout) : Layout :=
  { s with outer := s.candidate :: s.outer, candidate := none }

def closeFlow (s : Layout) : Layout :=
  match s.outer with
  | [] => s
  | k :: ks => { s with outer := ks, candidate := k }

end Layout
end VersionDrift.Yaml
