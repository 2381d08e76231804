import VersionDrift.Text.Basic

/-!
# Characters of a document

A document may hold tab, line breaks and printable characters only. Every way to
break a line but the Unicode line and paragraph separators counts as a line feed,
so `unifyBreaks` turns them into one first.
-/

set_option autoImplicit false

namespace VersionDrift.Yaml

def isAllowed (c : Char) : Bool :=
  let n := c.toNat
  n = 0x09 || n = 0x0A || n = 0x0D || (0x20 ≤ n && n ≤ 0x7E) || n = 0x85 ||
    (0xA0 ≤ n && n ≤ 0xD7FF) || (0xE000 ≤ n && n ≤ 0xFFFD) || 0x10000 ≤ n

/-- Carriage return with line feed, either alone, and next line become a line feed;
`afterReturn` tells whether a carriage return has just been read. -/
def unifyBreaksFrom : (afterReturn : Bool) → Text → Text
  | _, [] => []
  | afterReturn, c :: t =>
    if c = '\n' && afterReturn then unifyBreaksFrom false t
    else if c = '\r' then '\n' :: unifyBreaksFrom true t
    else if c = '\x85' then '\n' :: unifyBreaksFrom false t
    else c :: unifyBreaksFrom false t

def unifyBreaks (t : Text) : Text := unifyBreaksFrom false t

/-- The line breaks that are left after `unifyBreaks`. -/
def isBreak (c : Char) : Bool := c = '\n' || c = '\u2028' || c = '\u2029'

def isBlank (c : Char) : Bool := c = ' ' || c = '\t'

def atSpace : Text → Bool
  | [] => true
  | c :: _ => isBlank c || isBreak c

def isWord (c : Char) : Bool := c.isAlphanum || c = '_' || c = '-'

/-- `---` or `...` and then the end of a word: the marks between documents. -/
def atDocumentMark (t : Text) : Bool :=
  match t with
  | a :: b :: c :: r => a = b && b = c && (a = '-' || a = '.') && atSpace r
  | _ => false

def isFlowIndicator (c : Char) : Bool :=
  c = ',' || c = '[' || c = ']' || c = '{' || c = '}'

def byteOrderMark : Char := '\uFEFF'

end VersionDrift.Yaml
