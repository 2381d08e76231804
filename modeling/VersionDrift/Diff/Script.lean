import VersionDrift.Text.Line

/-!
# Edit scripts

A script keeps, removes and adds lines one after the other. `Script.shortest` keeps
as many lines as possible; between kept lines it removes before it adds, and added
lines stand as far down as they can. The table behind it has a row for each ending of
the old lines, and the row a cell for each ending of the new ones.
-/

set_option autoImplicit false

namespace VersionDrift

inductive Edit where
  | keep (line : Text)
  | remove (line : Text)
  | add (line : Text)
deriving DecidableEq, Repr

abbrev Script := List Edit

namespace Script

@[simp] def old : Script → List Text
  | [] => []
  | .keep l :: s => l :: old s
  | .remove l :: s => l :: old s
  | .add _ :: s => old s

@[simp] def new : Script → List Text
  | [] => []
  | .keep l :: s => l :: new s
  | .remove _ :: s => new s
  | .add l :: s => l :: new s

/-- A script with the number of lines that it keeps. -/
structure Cell where
  kept : Nat
  script : Script
deriving Repr

namespace Cell

def empty : Cell := ⟨0, []⟩

def keep (l : Text) (c : Cell) : Cell := ⟨c.kept + 1, .keep l :: c.script⟩

def remove (l : Text) (c : Cell) : Cell := ⟨c.kept, .remove l :: c.script⟩

def add (l : Text) (c : Cell) : Cell := ⟨c.kept, .add l :: c.script⟩

end Cell

def lastRow : List Text → List Cell
  | [] => [.empty]
  | y :: ys =>
    let row := lastRow ys
    (row.headD .empty).add y :: row

/-- The row for the old line `x` before those of the row `below`. -/
def rowAbove (x : Text) : List Text → List Cell → List Cell
  | [], below => [(below.headD .empty).remove x]
  | y :: ys, below =>
    let row := rowAbove x ys below.tail
    let removed := below.headD .empty
    let added := row.headD .empty
    let cell :=
      if x = y then (below.tail.headD .empty).keep x
      else if added.kept ≤ removed.kept then removed.remove x
      else added.add y
    cell :: row

def table (ys : List Text) : List Text → List Cell
  | [] => lastRow ys
  | x :: xs => rowAbove x ys (table ys xs)

def commonHead : List Text → List Text → List Text × List Text × List Text
  | x :: xs, y :: ys =>
    if x = y then
      let (head, rest) := commonHead xs ys
      (x :: head, rest)
    else ([], x :: xs, y :: ys)
  | xs, ys => ([], xs, ys)

/-- Lines that are added go down past removed lines, and past a kept line that is the first of
them. -/
def settle : (added : List Text) → Script → Script
  | added, [] => added.map .add
  | added, .add l :: s => settle (added ++ [l]) s
  | added, .remove l :: s => .remove l :: settle added s
  | [], .keep l :: s => .keep l :: settle [] s
  | a :: added, .keep l :: s =>
    if a = l then .keep l :: settle (added ++ [l]) s
    else (a :: added).map .add ++ .keep l :: settle [] s

/-- Common lines at both ends are kept; the table covers what lies between. -/
def shortest (xs ys : List Text) : Script :=
  let (head, xs, ys) := commonHead xs ys
  let (tail, xs, ys) := commonHead xs.reverse ys.reverse
  let (xs, ys) := (xs.reverse, ys.reverse)
  settle [] (head.map .keep ++ ((table ys xs).headD .empty).script ++ tail.reverse.map .keep)

end Script
end VersionDrift
