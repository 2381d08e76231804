import VersionDrift.Yaml.Cursor
import VersionDrift.Yaml.Gap
import VersionDrift.Yaml.Error

/-!
# Plain scalars

A plain scalar runs on over gaps until a comment, a colon before white space, a
document mark, a line that is not indented enough, or, in a flow collection, one
of its indicators. The gap after the last word is read over and not kept.
-/

set_option autoImplicit false

namespace VersionDrift.Yaml

structure PlainScalar where
  text : Text
  rest : Cursor
  brokenOff : Bool

namespace PlainScalar

def badColon (t : Text) : Bool :=
  match t with
  | ':' :: d :: _ => isFlowIndicator d || d = '?'
  | _ => false

def atEnd (inFlow : Bool) : Text → Bool
  | [] => true
  | c :: t => (c = ':' && atSpace t) || (inFlow && isFlowIndicator c)

def stopsAfterGap (inFlow : Bool) (indent column : Nat) (t : Text) : Bool :=
  (!inFlow && column < indent) || (column = 0 && atDocumentMark t) || t.head? = some '#'

/-- Reads on with the value so far, last character first, and the gap after it. -/
def readFrom (inFlow : Bool) (indent : Nat) :
    Text → Nat → Nat → Text → Gap → Except Error PlainScalar
  | [], line, column, acc, gap => .ok ⟨acc.reverse, ⟨[], line, column⟩, gap.hasBreak⟩
  | c :: t, line, column, acc, gap =>
    if isBlank c then
      if gap.hasBreak && column < indent && c = '\t' then .error .tabInIndentation
      else readFrom inFlow indent t line (column + 1) acc (gap.addBlank c)
    else if isBreak c then readFrom inFlow indent t (line + 1) 0 acc (gap.addBreak c)
    else if !gap.isEmpty && stopsAfterGap inFlow indent column (c :: t) then
      .ok ⟨acc.reverse, ⟨c :: t, line, column⟩, gap.hasBreak⟩
    else if inFlow && badColon (c :: t) then .error .colonInsideFlow
    else if atEnd inFlow (c :: t) then
      .ok ⟨acc.reverse, ⟨c :: t, line, column⟩, gap.hasBreak⟩
    else readFrom inFlow indent t line (column + 1) (c :: (gap.folded.reverse ++ acc)) .empty

/-- The scalar at the cursor; lines that carry it on are indented by at least `indent`. -/
def read (inFlow : Bool) (indent : Nat) (c : Cursor) : Except Error PlainScalar :=
  readFrom inFlow indent c.rest c.line c.column [] .empty

end PlainScalar
end VersionDrift.Yaml
