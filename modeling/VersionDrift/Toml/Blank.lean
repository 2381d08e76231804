import VersionDrift.Text.Blank
import VersionDrift.Toml.Error

/-!
# Blanks and comments

A carriage return counts only together with a line feed. Comments hold no control
character but the tab.
-/

set_option autoImplicit false

namespace VersionDrift.Toml

def isControl (c : Char) : Bool := (c.toNat < 0x20 && c ≠ '\t') || c.toNat = 0x7F

def skipComment : Text → Except Error Text
  | [] => .ok []
  | c :: t =>
    if c = '\n' || (c = '\r' && t.head? = some '\n') then .ok (c :: t)
    else if isControl c then .error .forbiddenCharacter
    else skipComment t

def skipSpace : (inComment : Bool) → Text → Except Error Text
  | _, [] => .ok []
  | inComment, c :: t =>
    if c = '\n' then skipSpace false t
    else if c = '\r' && t.head? = some '\n' then skipSpace inComment t
    else if inComment then if isControl c then .error .forbiddenCharacter else skipSpace true t
    else if Text.isGap c then skipSpace false t
    else if c = '#' then skipSpace true t
    else .ok (c :: t)

def skipGap (t : Text) : Text := t.dropWhile Text.isGap

def newline? : Text → Option Text
  | '\n' :: t => some t
  | '\r' :: '\n' :: t => some t
  | _ => none

def endLine (t : Text) : Except Error Text := do
  let t ← match skipGap t with
    | '#' :: r => skipComment r
    | r => pure r
  if t.isEmpty then return []
  match newline? t with
  | some r => return r
  | none => throw .trailingContent

end VersionDrift.Toml
