import VersionDrift.Text.Blank

/-!
# Scalars on one line

A version is written bare or in quotes. `Style.encode` writes one, `Scalar.scan`
reads one off the rest of a line and refuses every form that cannot be replaced
in place.
-/

set_option autoImplicit false

namespace VersionDrift

inductive Style where
  | plain
  | single
  | double
deriving DecidableEq, Repr

namespace Style

def isBareCharacter (c : Char) : Bool :=
  c.isAlphanum || c = '.' || c = '_' || c = '+' || c = '-'

/-- With two points a bare text is no number. -/
def isBareSafe (t : Text) : Bool := t.all isBareCharacter && 2 ≤ t.count '.'

def singleQuoted (t : Text) : Text := '\'' :: Text.replaceChar '\'' ['\'', '\''] t ++ ['\'']

def doubleQuoted (t : Text) : Text :=
  let escaped := Text.replaceChar '"' ['\\', '"'] (Text.replaceChar '\\' ['\\', '\\'] t)
  '"' :: escaped ++ ['"']

/-- A text that is not safe to write bare gets double quotes. -/
def encode : Style → Text → Text
  | plain, t => if isBareSafe t then t else doubleQuoted t
  | single, t => singleQuoted t
  | double, t => doubleQuoted t

end Style

inductive Form where
  | multiLine
  | blockScalar
  | anchorOrAlias
  | tag
  | flowCollection
  | multiLineQuoted
  | escapes
  | trailingContent
deriving DecidableEq, Repr

def Form.description : Form → String
  | multiLine => "a multi-line value"
  | blockScalar => "a block scalar"
  | anchorOrAlias => "an anchor or alias"
  | tag => "a tag"
  | flowCollection => "a flow collection"
  | multiLineQuoted => "a multi-line quoted value"
  | escapes => "escape sequences"
  | trailingContent => "trailing content after the value"

/-- A scalar in the rest of a line, which is `gap ++ token ++ after`. -/
structure Scalar where
  gap : Text
  token : Text
  after : Text
  style : Style
  value : Text
deriving DecidableEq, Repr

namespace Scalar

def isNoise (t : Text) : Bool :=
  match t.dropWhile Text.isGap with
  | [] => true
  | c :: _ => c = '#'

def untilQuote : Text → Option (Text × Text)
  | [] => none
  | '\'' :: '\'' :: t => (untilQuote t).map fun (inner, after) => ('\'' :: '\'' :: inner, after)
  | '\'' :: t => some ([], t)
  | c :: t => (untilQuote t).map fun (inner, after) => (c :: inner, after)

def unquoted : Text → Text
  | '\'' :: '\'' :: t => '\'' :: unquoted t
  | c :: t => c :: unquoted t
  | [] => []

/-- The text up to a comment that blanks precede. -/
def uncommented : Text → Text
  | [] => []
  | c :: t => if Text.isGap c && t.head? = some '#' then [] else c :: uncommented t

/-- The token at the start of a text with its style and value, and the text after it. -/
def scanToken : Text → Except Form (Text × Style × Text × Text)
  | [] => .error .multiLine
  | c :: t =>
    if c = '#' then .error .multiLine
    else if c = '|' || c = '>' then .error .blockScalar
    else if c = '&' || c = '*' then .error .anchorOrAlias
    else if c = '!' then .error .tag
    else if c = '{' || c = '[' then .error .flowCollection
    else if c = '"' then
      let inner := t.takeWhile (· ≠ '"')
      match t.drop inner.length with
      | [] => .error .multiLineQuoted
      | close :: after =>
        if '\\' ∈ inner then .error .escapes
        else .ok ('"' :: inner ++ [close], .double, inner, after)
    else if c = '\'' then
      match untilQuote t with
      | none => .error .multiLineQuoted
      | some (inner, after) => .ok ('\'' :: inner ++ ['\''], .single, unquoted inner, after)
    else
      let value := Text.dropEndWhile Text.isGap (uncommented (c :: t))
      .ok (value, .plain, value, (c :: t).drop value.length)

def scan (t : Text) : Except Form Scalar := do
  let gap := t.takeWhile Text.isGap
  let (token, style, value, after) ← scanToken (t.dropWhile Text.isGap)
  if isNoise after then return ⟨gap, token, after, style, value⟩
  else throw .trailingContent

end Scalar
end VersionDrift
