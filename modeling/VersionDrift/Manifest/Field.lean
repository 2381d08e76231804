import VersionDrift.Text.Blank
import VersionDrift.Text.Line

/-!
# Lines of a manifest

A line is significant when it carries structure. A field is a line that begins
with a key and its colon; only the key is unquoted, and what follows the colon is
left as it is.
-/

set_option autoImplicit false

namespace VersionDrift

structure Line where
  mark : Text
  text : Text
  ending : Text
deriving DecidableEq, Repr

namespace Line

def ofEnded (first : Bool) (ended : Text) : Line :=
  let body := Text.lineBody ended
  let ending := ended.drop body.length
  match body with
  | c :: t => if first && c = '\uFEFF' then ⟨[c], t, ending⟩ else ⟨[], body, ending⟩
  | [] => ⟨[], [], ending⟩

def whole (l : Line) : Text := l.mark ++ l.text ++ l.ending

def ofText (t : Text) : List Line :=
  match Text.endedLines t with
  | [] => []
  | l :: ls => ofEnded true l :: ls.map (ofEnded false)

def indent (l : Line) : Nat := (l.text.takeWhile (· = ' ')).length

/-- Blank lines, comments and marks between documents carry no structure. -/
def isSignificant (l : Line) : Bool :=
  let t := Text.trim l.text
  !(t.isEmpty || t.head? = some '#' ||
    (l.indent = 0 && (t = "---".toList || t = "...".toList)))

end Line

/-- A text `head ++ rest` that begins with a key; `head` ends with the colon. -/
structure Field where
  key : Text
  head : Text
  rest : Text
deriving DecidableEq, Repr

namespace Field

def atGap : Text → Bool
  | [] => true
  | c :: _ => Text.isGap c

/-- The text before the first colon that ends a word, and the text after it. -/
def untilColon : Text → Option (Text × Text)
  | [] => none
  | c :: t =>
    if c = ':' && atGap t then some ([], t)
    else (untilColon t).map fun (key, rest) => (c :: key, rest)

def quoted? (quote : Char) (t : Text) : Option Field :=
  let key := t.takeWhile (· ≠ quote)
  match t.drop key.length with
  | [] => none
  | close :: r =>
    let gap := r.takeWhile Text.isBlank
    match r.drop gap.length with
    | ':' :: rest =>
      if atGap rest then some ⟨key, quote :: key ++ close :: gap ++ [':'], rest⟩ else none
    | _ => none

def bare? (t : Text) : Option Field :=
  (untilColon t).map fun (key, rest) => ⟨Text.trimEnd key, key ++ [':'], rest⟩

def beginsNoKey (c : Char) : Bool := c ∈ ['-', '?', '{', '[', '&', '*', '!', '|', '>']

def ofText? : Text → Option Field
  | [] => none
  | c :: t =>
    if c = '"' || c = '\'' then quoted? c t
    else if beginsNoKey c then none
    else bare? (c :: t)

end Field
end VersionDrift
