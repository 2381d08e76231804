import VersionDrift.Diff.Hunk
import VersionDrift.Decimal.Natural

/-!
# Unified diffs

Two lines with the names of the old and the new text stand before the hunks, and a
line with its two ranges before each of them. A range of one line is its number;
an empty one starts at the line before it. A line that has no ending gets one, and
a note says so.
-/

set_option autoImplicit false

namespace VersionDrift
namespace Unified

def range (before count : Nat) : Text :=
  if count = 1 then Decimal.ofNat (before + 1)
  else Decimal.ofNat (if count = 0 then before else before + 1) ++ ',' :: Decimal.ofNat count

def ranges (h : Hunk) : Text :=
  "@@ -".toList ++ range h.oldBefore h.oldCount ++ " +".toList ++
    range h.newBefore h.newCount ++ " @@\n".toList

def missingEnding : Text := "\n\\ No newline at end of file\n".toList

def isEnded (line : Text) : Bool :=
  line.getLast? = some '\n' || line.getLast? = some '\r'

def row (sign : Char) (line : Text) : Text :=
  sign :: line ++ if isEnded line then [] else missingEnding

def edit : Edit → Text
  | .keep l => row ' ' l
  | .remove l => row '-' l
  | .add l => row '+' l

def hunk (h : Hunk) : Text := ranges h ++ (h.script.map edit).flatten

def contextLines : Nat := 2

def hunks (old new : Text) : List Hunk :=
  Hunk.ofScript contextLines
    (Script.shortest (Text.returnedLines old) (Text.returnedLines new))

/-- The diff of a file at `path`; `none` when there is no change. -/
def diff? (path old new : Text) : Option Text :=
  match hunks old new with
  | [] => none
  | hs => some ("--- a/".toList ++ path ++ "\n+++ b/".toList ++ path ++ '\n' ::
      (hs.map hunk).flatten)

end Unified
end VersionDrift
