import VersionDrift.Decimal.Natural
import VersionDrift.Yaml.Cursor
import VersionDrift.Yaml.Gap
import VersionDrift.Yaml.Error

/-!
# Quoted scalars

Between single quotes a doubled quote stands for one quote. Between double quotes
a backslash begins an escape: one letter for a character, a code point in two,
four or eight hexadecimal digits, or a line break that is left out.
-/

set_option autoImplicit false

namespace VersionDrift.Yaml.QuotedScalar

inductive Escape where
  | none
  | begun
  | digits (left value : Nat)
deriving DecidableEq, Repr

def letters : List (Char × Char) :=
  [('0', '\x00'), ('a', '\x07'), ('b', '\x08'), ('t', '\t'), ('\t', '\t'), ('n', '\n'),
   ('v', '\x0B'), ('f', '\x0C'), ('r', '\r'), ('e', '\x1B'), (' ', ' '), ('"', '"'), ('/', '/'),
   ('\\', '\\'), ('N', '\x85'), ('_', '\xA0'), ('L', '\u2028'), ('P', '\u2029')]

def codeLength? (c : Char) : Option Nat :=
  if c = 'x' then some 2 else if c = 'u' then some 4 else if c = 'U' then some 8 else .none

def codePoint? (n : Nat) : Option Char :=
  if n.isValidChar then some (Char.ofNat n) else .none

def readSingle : Text → Nat → Nat → Text → Gap → Except Error (Text × Cursor)
  | [], _, _, _, _ => .error .unterminatedScalar
  | c :: t, line, column, acc, gap =>
    if isBlank c then readSingle t line (column + 1) acc (gap.addBlank c)
    else if isBreak c then readSingle t (line + 1) 0 acc (gap.addBreak c)
    else if column = 0 && atDocumentMark (c :: t) then .error .markInsideScalar
    else
      let acc := gap.folded.reverse ++ acc
      if c = '\'' then
        match t with
        | '\'' :: r => readSingle r line (column + 2) ('\'' :: acc) .empty
        | _ => .ok (acc.reverse, ⟨t, line, column + 1⟩)
      else readSingle t line (column + 1) (c :: acc) .empty

def readDouble : Text → Nat → Nat → Text → Gap → Escape → Except Error (Text × Cursor)
  | [], _, _, _, _, _ => .error .unterminatedScalar
  | c :: t, line, column, acc, gap, .none =>
    if isBlank c then readDouble t line (column + 1) acc (gap.addBlank c) .none
    else if isBreak c then readDouble t (line + 1) 0 acc (gap.addBreak c) .none
    else if column = 0 && atDocumentMark (c :: t) then .error .markInsideScalar
    else
      let acc := gap.folded.reverse ++ acc
      if c = '"' then .ok (acc.reverse, ⟨t, line, column + 1⟩)
      else if c = '\\' then readDouble t line (column + 1) acc .empty .begun
      else readDouble t line (column + 1) (c :: acc) .empty .none
  | c :: t, line, column, acc, _, .begun =>
    if isBreak c then readDouble t (line + 1) 0 acc (.breaks .none []) .none
    else match letters.lookup c with
      | some d => readDouble t line (column + 1) (d :: acc) .empty .none
      | .none =>
        match codeLength? c with
        | some n => readDouble t line (column + 1) acc .empty (.digits n 0)
        | .none => .error .badEscape
  | c :: t, line, column, acc, _, .digits left value =>
    match Decimal.digit? 16 c with
    | .none => .error .badEscape
    | some d =>
      let value := value * 16 + d
      if left ≤ 1 then
        match codePoint? value with
        | some e => readDouble t line (column + 1) (e :: acc) .empty .none
        | .none => .error .badEscape
      else readDouble t line (column + 1) acc .empty (.digits (left - 1) value)

def read (single : Bool) (c : Cursor) : Except Error (Text × Cursor) :=
  let c := c.skip 1
  if single then readSingle c.rest c.line c.column [] .empty
  else readDouble c.rest c.line c.column [] .empty .none

end VersionDrift.Yaml.QuotedScalar
