import VersionDrift.Yaml.Character

/-!
# White space inside scalars

The white space between two words of a scalar stands for itself as long as it
holds no line break. With line breaks the blanks are lost and the breaks are
folded: a single line feed becomes a space, and a first one before others is
dropped. An escaped line break counts for nothing.
-/

set_option autoImplicit false

namespace VersionDrift.Yaml

inductive Gap where
  | blanks (cs : Text)
  | breaks (first : Option Char) (more : Text)
deriving DecidableEq, Repr

namespace Gap

def empty : Gap := .blanks []

@[simp] theorem empty_eq_blanks : empty = .blanks [] := rfl

def isEmpty : Gap → Bool
  | blanks [] => true
  | _ => false

@[simp] theorem isEmpty_blanks (cs : Text) : (blanks cs).isEmpty = cs.isEmpty := by
  cases cs <;> rfl

def hasBreak : Gap → Bool
  | blanks _ => false
  | breaks _ _ => true

@[simp] theorem hasBreak_blanks (cs : Text) : (blanks cs).hasBreak = false := rfl

def addBlank (c : Char) : Gap → Gap
  | blanks cs => .blanks (cs ++ [c])
  | g => g

def addBreak (b : Char) : Gap → Gap
  | blanks _ => .breaks (some b) []
  | breaks first more => .breaks first (more ++ [b])

def folded : Gap → Text
  | blanks cs => cs
  | breaks none more => more
  | breaks (some b) more =>
    if b = '\n' then (if more.isEmpty then [' '] else more) else b :: more

@[simp] theorem folded_blanks (cs : Text) : (blanks cs).folded = cs := rfl

end Gap
end VersionDrift.Yaml
