import VersionDrift.Text.Basic

/-!
# Coloured pieces of text

A piece is coloured by a sequence of codes before it and one that resets them after
it. Where the piece itself resets the codes they are set again.
-/

set_option autoImplicit false

namespace VersionDrift

inductive Colour where
  | red
  | green
  | yellow
  | cyan
deriving DecidableEq, Repr

def Colour.code : Colour → Text
  | red => "31".toList
  | green => "32".toList
  | yellow => "33".toList
  | cyan => "36".toList

structure Paint where
  bold : Bool
  colour : Option Colour
deriving DecidableEq, Repr

namespace Paint

def plain : Paint := ⟨false, none⟩

def ofColour (c : Colour) : Paint := ⟨false, some c⟩

def codes (p : Paint) : List Text :=
  (if p.bold then [['1']] else []) ++ p.colour.toList.map Colour.code

def opening (p : Paint) : Text := "\x1B[".toList ++ Text.joined [';'] p.codes ++ ['m']

def reset : Text := "\x1B[0m".toList

/-- The text with `s` after every `reset`, of which `left` characters are still to come. -/
def afterResets (s : Text) : (left : Nat) → Text → Text
  | _, [] => []
  | 0, c :: t => c :: afterResets s (if Text.startsWith reset (c :: t) then 3 else 0) t
  | 1, c :: t => c :: s ++ afterResets s 0 t
  | left + 2, c :: t => c :: afterResets s (left + 1) t

def apply (coloured : Bool) (p : Paint) (t : Text) : Text :=
  if coloured && p ≠ plain then p.opening ++ afterResets p.opening 0 t ++ reset else t

@[simp] theorem apply_false (p : Paint) (t : Text) : apply false p t = t := by simp [apply]

end Paint
end VersionDrift
