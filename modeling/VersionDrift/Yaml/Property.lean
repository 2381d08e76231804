import VersionDrift.Decimal.Natural
import VersionDrift.Yaml.Cursor
import VersionDrift.Yaml.Token
import VersionDrift.Yaml.Error

/-!
# Anchors, tags and directives

A tag is written `!<uri>`, or as a handle and a suffix. The lone `!` has the empty
handle and is its own suffix. A percent sign in a tag begins an octet of a
character in UTF-8.
-/

set_option autoImplicit false

namespace VersionDrift.Yaml.Property

def taken (p : Char → Bool) (c : Cursor) : Except Error (Text × Cursor) :=
  .ok (c.rest.takeWhile p, c.skipWhile p)

def endsAnchor (t : Text) : Bool :=
  atSpace t || (t.head?.any fun c => c ∈ "?:,]\x7d%@\x60".toList)

def anchorName (c : Cursor) : Except Error (Text × Cursor) := do
  let (name, c) ← taken isWord (c.skip 1)
  if !name.isEmpty && endsAnchor c.rest then return (name, c) else throw .badAnchor

def isUri (verbatim : Bool) (c : Char) : Bool :=
  isWord c || c ∈ ";/?:@&=+$.%!~*'()".toList || (verbatim && (c = ',' || c = '[' || c = ']'))

def octetWidth? (n : Nat) : Option Nat :=
  if n < 0x80 then some 1 else if n < 0xC0 then none else if n < 0xE0 then some 2
  else if n < 0xF0 then some 3 else if n < 0xF8 then some 4 else none

def octetLead (n : Nat) : Nat :=
  if n < 0x80 then n else if n < 0xE0 then n % 0x20 else if n < 0xF0 then n % 0x10 else n % 8

/-- What is open inside a tag: an octet of which digits are missing, or further octets of a
character with the given value so far. -/
inductive Escape where
  | none
  | lead
  | leadDigit (high : Nat)
  | next (left value : Nat)
  | nextSign (left value : Nat)
  | nextDigit (left value high : Nat)
deriving DecidableEq, Repr

/-- The longest text of tag characters, with escapes replaced; last character first. -/
def uriFrom (verbatim : Bool) (line : Nat) :
    Text → Nat → Text → Escape → Except Error (Text × Cursor)
  | [], column, acc, .none => .ok (acc, ⟨[], line, column⟩)
  | [], _, _, _ => .error .badTag
  | c :: t, column, acc, .none =>
    if !isUri verbatim c then .ok (acc, ⟨c :: t, line, column⟩)
    else if c = '%' then uriFrom verbatim line t (column + 1) acc .lead
    else uriFrom verbatim line t (column + 1) (c :: acc) .none
  | c :: t, column, acc, .lead =>
    match Decimal.digit? 16 c with
    | some d => uriFrom verbatim line t (column + 1) acc (.leadDigit d)
    | none => .error .badTag
  | c :: t, column, acc, .leadDigit high =>
    match Decimal.digit? 16 c with
    | none => .error .badTag
    | some d =>
      let octet := high * 16 + d
      match octetWidth? octet with
      | none => .error .badTag
      | some 1 => uriFrom verbatim line t (column + 1) (Char.ofNat octet :: acc) .none
      | some w => uriFrom verbatim line t (column + 1) acc (.next (w - 1) (octetLead octet))
  | c :: t, column, acc, .next left value =>
    if c = '%' then uriFrom verbatim line t (column + 1) acc (.nextSign left value)
    else .error .badTag
  | c :: t, column, acc, .nextSign left value =>
    match Decimal.digit? 16 c with
    | some d => uriFrom verbatim line t (column + 1) acc (.nextDigit left value d)
    | none => .error .badTag
  | c :: t, column, acc, .nextDigit left value high =>
    match Decimal.digit? 16 c with
    | none => .error .badTag
    | some d =>
      let octet := high * 16 + d
      if octet / 0x40 ≠ 2 then .error .badTag
      else
        let value := value * 0x40 + octet % 0x40
        if left ≤ 1 then
          let e := if value.isValidChar then Char.ofNat value else '\uFFFD'
          uriFrom verbatim line t (column + 1) (e :: acc) .none
        else uriFrom verbatim line t (column + 1) acc (.next (left - 1) value)

def uri (verbatim : Bool) (begun : Text) (c : Cursor) : Except Error (Text × Cursor) := do
  let (acc, c) ← uriFrom verbatim c.line c.rest c.column [] .none
  return (begun ++ acc.reverse, c)

def handle (c : Cursor) : Except Error (Text × Cursor) := do
  if c.rest.head? = some '!' then
    let (word, c) ← taken isWord (c.skip 1)
    if c.rest.head? = some '!' then return ('!' :: word ++ ['!'], c.skip 1)
    else return ('!' :: word, c)
  else throw .badTag

def isNamedHandle (h : Text) : Bool := 2 ≤ h.length && h.getLast? = some '!'

def tagBody (c : Cursor) : Except Error (Token × Cursor) :=
  if (c.rest.drop 1).head? = some '<' then do
    let (suffix, c) ← uri true [] (c.skip 2)
    if suffix.isEmpty then throw .badTag
    if c.rest.head? = some '>' then return (.tag [] suffix, c.skip 1) else throw .badTag
  else do
    let (h, c) ← handle c
    if isNamedHandle h then
      let (suffix, c) ← uri false [] c
      if suffix.isEmpty then throw .badTag
      return (.tag h suffix, c)
    else
      let (suffix, c) ← uri false h.tail c
      return (if suffix.isEmpty then .tag [] ['!'] else .tag ['!'] suffix, c)

def tag (inFlow : Bool) (c : Cursor) : Except Error (Token × Cursor) := do
  let (t, c) ← tagBody c
  if atSpace c.rest || (inFlow && c.rest.head? = some ',') then return (t, c) else throw .badTag

def versionNumber (c : Cursor) : Except Error (Nat × Cursor) := do
  let (digits, c) ← taken Char.isDigit c
  match Decimal.read? 10 digits with
  | some n => if digits.length ≤ 9 then return (n, c) else throw .badDirective
  | none => throw .badDirective

def versionDirective (c : Cursor) : Except Error (Token × Cursor) := do
  let (major, c) ← versionNumber (c.skipWhile isBlank)
  if c.rest.head? = some '.' then
    let (minor, c) ← versionNumber (c.skip 1)
    return (.versionDirective major minor, c)
  else throw .badDirective

def tagDirective (c : Cursor) : Except Error (Token × Cursor) := do
  let (h, c) ← handle (c.skipWhile isBlank)
  if !(h = ['!'] || isNamedHandle h) then throw .badDirective
  if !(c.rest.head?.any isBlank) then throw .badDirective
  let (stem, c) ← uri true [] (c.skipWhile isBlank)
  if stem.isEmpty || !atSpace c.rest then throw .badDirective
  return (.tagDirective h stem, c)

def endDirective (t : Token) (c : Cursor) : Except Error (Token × Cursor) :=
  match c.endLine? with
  | some c => .ok (t, c)
  | none => .error .badDirective

def directive (c : Cursor) : Except Error (Token × Cursor) := do
  let (name, c) ← taken isWord (c.skip 1)
  if name.isEmpty || !atSpace c.rest then throw .badDirective
  let (t, c) ← if name = "YAML".toList then versionDirective c
    else if name = "TAG".toList then tagDirective c
    else throw .badDirective
  endDirective t c

end VersionDrift.Yaml.Property
