import VersionDrift.Decimal.Natural
import VersionDrift.Toml.Blank

/-!
# Strings

Double quotes allow escapes, single quotes do not. Three quotes make a string that
goes on over line breaks; the break right after them is not part of it, and up to
two quotes may stand before the closing ones.
-/

set_option autoImplicit false

namespace VersionDrift.Toml.Quoted

/-- Where the reading of a string stands: at its text, of which a folded line break may leave blanks
to skip; after a backslash; after a backslash and blanks, where only a line break may follow; or
before `left` more digits of a character number. -/
inductive State where
  | text (skipping : Bool)
  | escape
  | escapedBlanks
  | digits (left value : Nat)
deriving DecidableEq, Repr

def simpleEscape? (c : Char) : Option Char :=
  match c with
  | 'b' => some '\x08'
  | 't' => some '\t'
  | 'n' => some '\n'
  | 'f' => some '\x0C'
  | 'r' => some '\r'
  | 'e' => some '\x1B'
  | '"' => some '"'
  | '\\' => some '\\'
  | _ => none

def digitCount? (c : Char) : Option Nat :=
  match c with
  | 'x' => some 2
  | 'u' => some 4
  | 'U' => some 8
  | _ => none

def character? (n : Nat) : Option Char :=
  if n.isValidChar then some (Char.ofNat n) else none

/-- After one quote of a long string: what the closing quotes leave to the string, and what follows
them. -/
def closing? (quote : Char) (t : Text) : Option (Text × Text) :=
  match Text.after? [quote, quote] t with
  | none => none
  | some r =>
    let extra := (r.takeWhile (· = quote)).take 2
    some (extra, r.drop extra.length)

def prepend (c : Char) (r : Except Error (Text × Text)) : Except Error (Text × Text) :=
  r.map fun (s, rest) => (c :: s, rest)

def isBreak (c : Char) (t : Text) : Bool := c = '\n' || (c = '\r' && t.head? = some '\n')

def basic (long : Bool) : State → Text → Except Error (Text × Text)
  | _, [] => .error .unterminatedString
  | .text skipping, c :: t =>
    if skipping && (Text.isGap c || isBreak c t) then basic long (.text true) t
    else if c = '"' then
      if long then
        match closing? '"' t with
        | some r => .ok r
        | none => prepend c (basic long (.text false) t)
      else .ok ([], t)
    else if c = '\\' then basic long .escape t
    else if isBreak c t then
      if long then prepend c (basic long (.text false) t) else .error .unterminatedString
    else if isControl c then .error .forbiddenCharacter
    else prepend c (basic long (.text false) t)
  | .escape, c :: t =>
    match simpleEscape? c, digitCount? c with
    | some d, _ => prepend d (basic long (.text false) t)
    | none, some n => basic long (.digits n 0) t
    | none, none =>
      if !long then .error .badEscape
      else if c = '\n' then basic long (.text true) t
      else if Text.isGap c || isBreak c t then basic long .escapedBlanks t
      else .error .badEscape
  | .escapedBlanks, c :: t =>
    if c = '\n' then basic long (.text true) t
    else if Text.isGap c || isBreak c t then basic long .escapedBlanks t
    else .error .badEscape
  | .digits left value, c :: t =>
    match Decimal.digit? 16 c with
    | none => .error .badEscape
    | some d =>
      let value := value * 16 + d
      if 1 < left then basic long (.digits (left - 1) value) t
      else match character? value with
        | some e => prepend e (basic long (.text false) t)
        | none => .error .badEscape

def literal (long : Bool) : Text → Except Error (Text × Text)
  | [] => .error .unterminatedString
  | c :: t =>
    if c = '\'' then
      if long then
        match closing? '\'' t with
        | some r => .ok r
        | none => prepend c (literal long t)
      else .ok ([], t)
    else if isBreak c t then
      if long then prepend c (literal long t) else .error .unterminatedString
    else if isControl c then .error .forbiddenCharacter
    else prepend c (literal long t)

def read (quote : Char) (longAllowed : Bool) (t : Text) : Except Error (Text × Text) :=
  let body (long : Bool) (r : Text) : Except Error (Text × Text) :=
    if quote = '"' then basic long (.text false) r else literal long r
  match if longAllowed then Text.after? [quote, quote] t else none with
  | some r => body true ((newline? r).getD r)
  | none => body false t

end VersionDrift.Toml.Quoted
