import VersionDrift.Decimal.Natural
import VersionDrift.Yaml.Cursor
import VersionDrift.Yaml.Error

/-!
# Block scalars

The header gives the style, the chomping of the last line breaks and, if need be,
the indentation, which else is that of the first line with text. A folded scalar
turns a single line feed between two lines that do not begin with a blank into a
space.
-/

set_option autoImplicit false

namespace VersionDrift.Yaml

inductive Chomping where
  | strip
  | clip
  | keep
deriving DecidableEq, Repr

namespace BlockScalar

def chomping? (c : Char) : Option Chomping :=
  if c = '+' then some .keep else if c = '-' then some .strip else none

def indentation (c : Cursor) : Except Error (Option Nat × Cursor) :=
  match c.rest.head?.bind (Decimal.digit? 10) with
  | none => .ok (none, c)
  | some 0 => .error .badBlockHeader
  | some n => .ok (some n, c.skip 1)

def header (c : Cursor) : Except Error ((Chomping × Option Nat) × Cursor) :=
  match c.rest.head?.bind chomping? with
  | some k => do
    let (n, c) ← indentation (c.skip 1)
    return ((k, n), c)
  | none => do
    let (n, c) ← indentation c
    match c.rest.head?.bind chomping? with
    | some k => return ((k, n), c.skip 1)
    | none => return ((.clip, n), c)

/-- The line breaks up to the next line with text, with the deepest column reached by spaces. The
spaces stop at `indent` when it is known. -/
def skipBreaks (indent : Option Nat) : Text → Nat → Nat → Nat → Text →
    Except Error (Text × Nat × Cursor)
  | [], line, column, deepest, breaks => .ok (breaks, deepest, ⟨[], line, column⟩)
  | c :: t, line, column, deepest, breaks =>
    let within := indent.all (column < ·)
    if within && c = ' ' then
      skipBreaks indent t line (column + 1) (max deepest (column + 1)) breaks
    else if within && c = '\t' then .error .tabInIndentation
    else if isBreak c then skipBreaks indent t (line + 1) 0 deepest (breaks ++ [c])
    else .ok (breaks, deepest, ⟨c :: t, line, column⟩)

/-- The value read so far, last character first, and what is pending after its last line. -/
structure Body where
  acc : Text
  lastBreak : Option Char
  breaks : Text
  blankLine : Bool

namespace Body

def openLine (literal : Bool) (c : Char) (b : Body) : Body :=
  let folds := !literal && b.lastBreak = some '\n' && !b.blankLine && !isBlank c
  let joint := if folds then (if b.breaks.isEmpty then [' '] else b.breaks)
    else b.lastBreak.toList ++ b.breaks
  ⟨c :: (joint.reverse ++ b.acc), none, [], isBlank c⟩

def chomped (k : Chomping) (b : Body) : Text :=
  b.acc.reverse ++ match k with
    | .strip => []
    | .clip => b.lastBreak.toList
    | .keep => b.lastBreak.toList ++ b.breaks

end Body

/-- Reads on, inside a line with text or among breaks and indentation. -/
def readBody (literal : Bool) (indent : Nat) :
    Text → Nat → Nat → (inLine : Bool) → Body → Except Error (Body × Cursor)
  | [], line, column, _, b => .ok (b, ⟨[], line, column⟩)
  | c :: t, line, column, true, b =>
    if isBreak c then
      readBody literal indent t (line + 1) 0 false { b with lastBreak := some c, breaks := [] }
    else readBody literal indent t line (column + 1) true { b with acc := c :: b.acc }
  | c :: t, line, column, false, b =>
    if column < indent && c = ' ' then readBody literal indent t line (column + 1) false b
    else if column < indent && c = '\t' then .error .tabInIndentation
    else if isBreak c then
      readBody literal indent t (line + 1) 0 false { b with breaks := b.breaks ++ [c] }
    else if column = indent then
      readBody literal indent t line (column + 1) true (b.openLine literal c)
    else .ok (b, ⟨c :: t, line, column⟩)

/-- The scalar whose indicator stands at the cursor, inside collections indented to column
`parent`. -/
def read (literal : Bool) (parent : Option Nat) (c : Cursor) : Except Error (Text × Cursor) := do
  let ((chomping, increment), c) ← header (c.skip 1)
  let some c := c.endLine? | throw .badBlockHeader
  let least := parent.elim 0 (· + 1)
  let given := increment.map (parent.getD 0 + ·)
  let (breaks, deepest, c) ← skipBreaks given c.rest c.line c.column 0 []
  let indent := given.getD (max deepest (max least 1))
  let (body, c) ← readBody literal indent c.rest c.line c.column false ⟨[], none, breaks, false⟩
  return (body.chomped chomping, c)

end BlockScalar
end VersionDrift.Yaml
