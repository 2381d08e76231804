import VersionDrift.Text.Basic

/-!
# Blank characters

`isBlank` is the Unicode property White_Space, 25 code points given as ranges.
A blank of a line is a space or a tab only. Trimming and splitting into words
follow the property.
-/

set_option autoImplicit false

namespace VersionDrift.Text

def blankRanges : List (Nat × Nat) :=
  [(0x09, 0x0D), (0x20, 0x20), (0x85, 0x85), (0xA0, 0xA0), (0x1680, 0x1680), (0x2000, 0x200A),
   (0x2028, 0x2029), (0x202F, 0x202F), (0x205F, 0x205F), (0x3000, 0x3000)]

def isBlank (c : Char) : Bool :=
  blankRanges.any fun (first, last) => first ≤ c.toNat && c.toNat ≤ last

def isGap (c : Char) : Bool := c = ' ' || c = '\t'

def trimStart (t : Text) : Text := t.dropWhile isBlank

def dropEndWhile (p : Char → Bool) : Text → Text
  | [] => []
  | c :: t =>
    match dropEndWhile p t with
    | [] => if p c then [] else [c]
    | r => c :: r

def trimEnd (t : Text) : Text := dropEndWhile isBlank t

def trim (t : Text) : Text := trimEnd (trimStart t)

/-- The maximal runs of characters that are not blank, after a word begun with `open_`. -/
def wordsFrom : Text → Text → List Text
  | [], [] => []
  | open_, [] => [open_.reverse]
  | open_, c :: t =>
    if isBlank c then
      if open_.isEmpty then wordsFrom [] t else open_.reverse :: wordsFrom [] t
    else wordsFrom (c :: open_) t

def words (t : Text) : List Text := wordsFrom [] t

end VersionDrift.Text
