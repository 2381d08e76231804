import VersionDrift.Text.Unprintable
import VersionDrift.Text.Extending

/-!
# Texts in double quotes

A text as it is shown in a message: what would not show by itself is written as an
escape, by a letter or by the number of the character.
-/

set_option autoImplicit false

namespace VersionDrift.Text

def escapedCharacter (c : Char) : Text :=
  match c with
  | '\x00' => "\\0".toList
  | '\t' => "\\t".toList
  | '\r' => "\\r".toList
  | '\n' => "\\n".toList
  | '\\' => "\\\\".toList
  | '"' => "\\\"".toList
  | c =>
    if isExtending c || isUnprintable c then
      "\\u\x7b".toList ++ Nat.toDigits 16 c.toNat ++ ['}']
    else [c]

def escaped (t : Text) : Text := '"' :: t.flatMap escapedCharacter ++ ['"']

end VersionDrift.Text
