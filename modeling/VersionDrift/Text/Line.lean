import VersionDrift.Text.Basic

/-!
# Lines

`endedLines` cuts a text after every line feed, so that the pieces add up to the
text; `returnedLines` does so after every carriage return that no line feed
follows, too. `lineBody` takes a line feed, and one carriage return before it, off
the end of a piece; `printedLines` are the bodies that a reader of the text sees.
-/

set_option autoImplicit false

namespace VersionDrift.Text

/-- The text cut after every line feed; the empty text has no lines. -/
def endedLines : Text → List Text
  | [] => []
  | c :: t =>
    if c = '\n' then [c] :: endedLines t
    else match endedLines t with
      | [] => [[c]]
      | l :: ls => (c :: l) :: ls

@[simp] theorem endedLines_flatten (t : Text) : (endedLines t).flatten = t := by
  induction t with
  | nil => rfl
  | cons c t ih =>
    unfold endedLines
    split
    · simp [ih]
    · split
      · next h => rw [h] at ih; simp at ih; simp [← ih]
      · next h => rw [h] at ih; simp [← ih]

/-- The text cut after every line feed and every lone carriage return. -/
def returnedLines : Text → List Text
  | [] => []
  | c :: t =>
    if c = '\n' || (c = '\r' && t.head? ≠ some '\n') then [c] :: returnedLines t
    else match returnedLines t with
      | [] => [[c]]
      | l :: ls => (c :: l) :: ls

@[simp] theorem returnedLines_flatten (t : Text) : (returnedLines t).flatten = t := by
  induction t with
  | nil => rfl
  | cons c t ih =>
    unfold returnedLines
    split
    · simp [ih]
    · split
      · next h => rw [h] at ih; simp at ih; simp [← ih]
      · next h => rw [h] at ih; simp [← ih]

theorem returnedLines_injective {s t : Text} (h : returnedLines s = returnedLines t) : s = t := by
  rw [← returnedLines_flatten s, h, returnedLines_flatten]

def dropLast? (c : Char) : Text → Option Text
  | [] => none
  | [d] => if d = c then some [] else none
  | d :: t => (dropLast? c t).map (d :: ·)

/-- The line without one line feed and then one carriage return at its end. -/
def lineBody (line : Text) : Text :=
  let unfed := (dropLast? '\n' line).getD line
  (dropLast? '\r' unfed).getD unfed

/-- A carriage return ends a line only together with a line feed. -/
def printedBody (line : Text) : Text :=
  match dropLast? '\n' line with
  | none => line
  | some unfed => (dropLast? '\r' unfed).getD unfed

def printedLines (t : Text) : List Text := (endedLines t).map printedBody

end VersionDrift.Text
