import VersionDrift.Diff.Script

/-!
# Hunks

A hunk is a stretch of a script with the numbers of the lines before it. It shows
at most `context` kept lines at either end, and holds no run of more than twice as
many.
-/

set_option autoImplicit false

namespace VersionDrift

structure Hunk where
  oldBefore : Nat
  newBefore : Nat
  script : Script
deriving DecidableEq, Repr

namespace Hunk

def oldCount (h : Hunk) : Nat := h.script.old.length

def newCount (h : Hunk) : Nat := h.script.new.length

def extend (h : Hunk) (s : Script) : Hunk := { h with script := h.script ++ s }

end Hunk

/-- Kept lines and then changed ones. -/
structure Change where
  kept : List Text
  changed : Script
deriving DecidableEq, Repr

namespace Change

/-- The changes of a script, and the lines that it keeps after them. -/
def split : Script → List Change × List Text
  | [] => ([], [])
  | .keep l :: s =>
    match split s with
    | ([], tail) => ([], l :: tail)
    | (c :: cs, tail) => ({ c with kept := l :: c.kept } :: cs, tail)
  | e :: s =>
    match split s with
    | (⟨[], changed⟩ :: cs, tail) => (⟨[], e :: changed⟩ :: cs, tail)
    | (cs, tail) => (⟨[], [e]⟩ :: cs, tail)

def whole (c : Change) : Script := c.kept.map .keep ++ c.changed

end Change

namespace Hunk

def start (context oldBefore newBefore : Nat) (c : Change) : Hunk :=
  let hidden := c.kept.length - context
  ⟨oldBefore + hidden, newBefore + hidden, (c.kept.drop hidden).map .keep ++ c.changed⟩

/-- The hunks from the one under construction on, with the numbers of the lines before the
changes that are left. -/
def build (context : Nat) (oldBefore newBefore : Nat) (current : Hunk) (tail : List Text) :
    List Change → List Hunk
  | [] => [current.extend ((tail.take context).map .keep)]
  | c :: cs =>
    let oldAfter := oldBefore + c.whole.old.length
    let newAfter := newBefore + c.whole.new.length
    if c.kept.length ≤ 2 * context then
      build context oldAfter newAfter (current.extend c.whole) tail cs
    else
      current.extend ((c.kept.take context).map .keep) ::
        build context oldAfter newAfter (start context oldBefore newBefore c) tail cs

def ofScript (context : Nat) (s : Script) : List Hunk :=
  match Change.split s with
  | ([], _) => []
  | (c :: cs, tail) =>
    build context c.whole.old.length c.whole.new.length (start context 0 0 c) tail cs

end Hunk
end VersionDrift
