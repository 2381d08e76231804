import VersionDrift.Manifest.Scalar
import VersionDrift.Manifest.Field

/-!
# The place of the version

`Located.find` looks for the field `version` of the top-level field `context` line
by line. The level of the fields of `context` is the indentation of the first
significant line below it; lines at other levels are passed over, and a line
without indentation ends the search.
-/

set_option autoImplicit false

namespace VersionDrift

def contextKey : Text := "context".toList

def versionKey : Text := "version".toList

inductive Unlocated where
  | notBlockMapping
  | noVersionLine
  | unsupported (form : Form)
deriving DecidableEq, Repr

def Unlocated.message : Unlocated → String
  | notBlockMapping => "`context` must be a block mapping to be rewritten"
  | noVersionLine => "could not find a rewritable `context.version` line"
  | unsupported form =>
    "`context.version` uses " ++ form.description ++ ", which cannot be rewritten in place"

/-- A text `before ++ token ++ after` whose token is the version. -/
structure Located where
  before : Text
  token : Text
  after : Text
  style : Style
  value : Text
deriving DecidableEq, Repr

namespace Located

def precede (t : Text) (l : Located) : Located := { l with before := t ++ l.before }

/-- First and last byte offset of the token. -/
def span (l : Located) : Nat × Nat :=
  (Text.byteCount l.before, Text.byteCount l.before + Text.byteCount l.token)

def ofField (l : Line) (f : Field) (below : List Line) : Except Unlocated Located :=
  match Scalar.scan f.rest with
  | .error form => .error (.unsupported form)
  | .ok s =>
    let before := l.mark ++ l.text.take l.indent ++ f.head ++ s.gap
    .ok ⟨before, s.token, s.after ++ l.ending ++ (below.map Line.whole).flatten, s.style, s.value⟩

/-- Looks below the context field; `level` is the indentation of its fields once it is known. -/
def findVersion : (level : Option Nat) → List Line → Except Unlocated Located
  | _, [] => .error .noVersionLine
  | level, l :: ls =>
    if !l.isSignificant then (findVersion level ls).map (precede l.whole)
    else if l.indent = 0 then .error .noVersionLine
    else
      let level := level.getD l.indent
      let field? := if l.indent = level then Field.ofText? (l.text.drop l.indent) else none
      match field?.filter (·.key = versionKey) with
      | some f => ofField l f ls
      | none => (findVersion (some level) ls).map (precede l.whole)

def findContext : List Line → Except Unlocated Located
  | [] => .error .noVersionLine
  | l :: ls =>
    let field? := if l.isSignificant && l.indent = 0 then Field.ofText? l.text else none
    match field?.filter (·.key = contextKey) with
    | some f =>
      if Scalar.isNoise f.rest then (findVersion none ls).map (precede l.whole)
      else .error .notBlockMapping
    | none => (findContext ls).map (precede l.whole)

def find (t : Text) : Except Unlocated Located := findContext (Line.ofText t)

end Located
end VersionDrift
