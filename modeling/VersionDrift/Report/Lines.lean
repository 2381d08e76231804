import VersionDrift.Report.Paint
import VersionDrift.Failure
import VersionDrift.Text.Line

/-!
# The report of a run

Lines on the outcome, with the lines of a diff coloured by what they begin with,
and one line on a failure. A mismatch itself is reported as a failure.
-/

set_option autoImplicit false

namespace VersionDrift.Report

def diffPaint (line : Text) : Paint :=
  if Text.startsWith "+++".toList line || Text.startsWith "---".toList line then ⟨true, none⟩
  else if Text.startsWith ['+'] line then .ofColour .green
  else if Text.startsWith ['-'] line then .ofColour .red
  else if Text.startsWith "@@".toList line then .ofColour .cyan
  else .plain

def diff (coloured : Bool) (t : Text) : Text :=
  (Text.printedLines t).flatMap fun line => (diffPaint line).apply coloured line ++ ['\n']

def optionalDiff (coloured : Bool) (t : Option Text) : Text := t.elim [] (diff coloured)

def outcome (coloured : Bool) : Outcome → Text
  | .synced version =>
    (Paint.ofColour .green).apply coloured "Versions are in sync:".toList ++
      ' ' :: (Paint.mk true none).apply coloured version ++ ['\n']
  | .updated old new d =>
    "Updating manifest version from ".toList ++ (Paint.ofColour .yellow).apply coloured old ++
      " to ".toList ++ (Paint.mk true (some .green)).apply coloured new ++ "...\n".toList ++
      optionalDiff coloured d ++
      (Paint.ofColour .green).apply coloured "Done.".toList ++ ['\n']
  | .mismatch _ d => optionalDiff coloured d

def failure (coloured : Bool) (message : Text) : Text :=
  (Paint.mk true (some .red)).apply coloured "Error:".toList ++ ' ' :: message

end VersionDrift.Report
