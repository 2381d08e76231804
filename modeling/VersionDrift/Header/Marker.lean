import VersionDrift.Text.Blank

/-!
# Markers

A marker is a line of words such as `#define LIB_MAJOR`. It occurs at a place of
a text when its words stand there literally with runs of spaces and tabs between
them, and its value is the run of non-blank characters that follows after one
more such run. A place counts at the start of the text and after a character that
cannot belong to an identifier, so every line start counts.
-/

set_option autoImplicit false

namespace VersionDrift

structure Marker where
  text : Text
deriving DecidableEq, Repr

namespace Marker

def isIdentifier (c : Char) : Bool := c.isAlphanum || c = '_'

def afterGap? : Text → Option Text
  | [] => none
  | c :: t => if Text.isGap c then some (t.dropWhile Text.isGap) else none

/-- What follows the words when the text begins with them. -/
def afterWords? : List Text → Text → Option Text
  | [], t => some t
  | [w], t => Text.after? w t
  | w :: ws, t => (Text.after? w t).bind fun r => (afterGap? r).bind (afterWords? ws)

def valueHere? (words : List Text) (t : Text) : Option Text :=
  ((afterWords? words t).bind afterGap?).bind fun r =>
    let value := r.takeWhile fun c => !Text.isBlank c
    if value.isEmpty then none else some value

/-- The value of the first occurrence; `bound` tells whether the start counts as a place. -/
def firstValue? (words : List Text) : Bool → Text → Option Text
  | _, [] => none
  | bound, c :: t =>
    let here := if bound then valueHere? words (c :: t) else none
    here.orElse fun _ => firstValue? words (!isIdentifier c) t

/-- The value without a comment that begins inside it. -/
def uncommented (value : Text) : Text :=
  Text.before "/*".toList (Text.before "//".toList value)

def find? (m : Marker) (t : Text) : Option Text :=
  (firstValue? (Text.words m.text) true t).map uncommented

end Marker
end VersionDrift
