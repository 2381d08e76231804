import VersionDrift.Yaml.Character

/-!
# Places in a document

A cursor is the text that is left, with the line and the column it starts at.
-/

set_option autoImplicit false

namespace VersionDrift.Yaml

structure Cursor where
  rest : Text
  line : Nat
  column : Nat
deriving DecidableEq, Repr

namespace Cursor

def start (t : Text) : Cursor := ⟨t, 0, 0⟩

def skip (n : Nat) (c : Cursor) : Cursor := ⟨c.rest.drop n, c.line, c.column + n⟩

@[simp] theorem skip_rest (n : Nat) (c : Cursor) : (c.skip n).rest = c.rest.drop n := rfl

@[simp] theorem skip_line (n : Nat) (c : Cursor) : (c.skip n).line = c.line := rfl

@[simp] theorem skip_column (n : Nat) (c : Cursor) : (c.skip n).column = c.column + n := rfl

def skipWhile (p : Char → Bool) (c : Cursor) : Cursor :=
  c.skip (c.rest.takeWhile p).length

def skipBreak (c : Cursor) : Cursor :=
  match c.rest with
  | b :: r => if isBreak b then ⟨r, c.line + 1, 0⟩ else c
  | [] => c

def skipComment (c : Cursor) : Cursor :=
  match c.rest with
  | '#' :: _ => c.skipWhile fun d => !isBreak d
  | _ => c

def endLine? (c : Cursor) : Option Cursor :=
  let c := (c.skipWhile isBlank).skipComment
  match c.rest with
  | [] => some c
  | b :: _ => if isBreak b then some c.skipBreak else none

end Cursor

/-- Past spaces, comments and line breaks, and past a byte order mark at the start of a line, to
the next token. Tabs are skipped inside flow collections and where no key may stand; a line break
outside them makes a key possible. -/
def skipSpace (inFlow : Bool) : Text → Nat → Nat → (keyAllowed inComment : Bool) → Cursor × Bool
  | [], line, column, keyAllowed, _ => (⟨[], line, column⟩, keyAllowed)
  | c :: t, line, column, keyAllowed, inComment =>
    if isBreak c then skipSpace inFlow t (line + 1) 0 (keyAllowed || !inFlow) false
    else if inComment then skipSpace inFlow t line (column + 1) keyAllowed true
    else if c = byteOrderMark && column = 0 then skipSpace inFlow t line 1 keyAllowed false
    else if c = ' ' || (c = '\t' && (inFlow || !keyAllowed)) then
      skipSpace inFlow t line (column + 1) keyAllowed false
    else if c = '#' then skipSpace inFlow t line (column + 1) keyAllowed true
    else (⟨c :: t, line, column⟩, keyAllowed)

end VersionDrift.Yaml
