import VersionDrift.Yaml.Layout
import VersionDrift.Yaml.PlainScalar
import VersionDrift.Yaml.QuotedScalar
import VersionDrift.Yaml.BlockScalar
import VersionDrift.Yaml.Property

/-!
# The tokens of a document

`Token.ofText` reads a text token by token. Every step takes at least one
character, so as many steps as characters reach the end.
-/

set_option autoImplicit false

namespace VersionDrift.Yaml
namespace Layout

def documentMark (t : Token) (s : Layout) : Except Error Layout := do
  let s ← s.closeAll.dropCandidate
  return (s.allowKey false).take 3 t

def directiveLine (s : Layout) : Except Error Layout := do
  let s ← s.closeAll.dropCandidate
  let (t, c) ← Property.directive s.cursor
  return { (s.allowKey false).emit t with cursor := c }

def flowStart (t : Token) (s : Layout) : Except Error Layout := do
  let s ← s.noteCandidate
  return (s.openFlow.allowKey true).take 1 t

def flowEnd (t : Token) (s : Layout) : Except Error Layout := do
  let s ← s.dropCandidate
  return (s.closeFlow.allowKey false).take 1 t

def flowSeparator (s : Layout) : Except Error Layout := do
  let s ← s.dropCandidate
  return (s.allowKey true).take 1 .flowEntry

/-- Opens the block collection that an entry at the cursor begins. -/
def openEntry (refusal : Error) (t : Token) (s : Layout) : Except Error Layout :=
  if !s.inFlow && !s.keyAllowed then .error refusal
  else (s.openBlock s.cursor.column s.emitted.length t).dropCandidate

def sequenceEntry (s : Layout) : Except Error Layout := do
  let s ← s.openEntry .misplacedEntry .blockSequenceStart
  return (s.allowKey true).take 1 .blockEntry

def explicitKey (s : Layout) : Except Error Layout := do
  let s ← s.openEntry .misplacedKey .blockMappingStart
  return (s.allowKey !s.inFlow).take 1 .key

/-- Makes a key of the possible key before a colon; else the colon follows an explicit one. -/
def openValue (s : Layout) : Except Error Layout :=
  match s.candidate with
  | some k =>
    let s := (s.insertAt k.position .key).openBlock k.column k.position .blockMappingStart
    .ok ({ s with candidate := none }.allowKey false)
  | none =>
    if !s.inFlow && !s.keyAllowed then .error .misplacedValue
    else .ok ((s.openBlock s.cursor.column s.emitted.length .blockMappingStart).allowKey !s.inFlow)

def mappingValue (s : Layout) : Except Error Layout := do
  let s ← s.openValue
  return s.take 1 .value

def aliasOrAnchor (token : Text → Token) (s : Layout) : Except Error Layout := do
  let s ← s.noteCandidate
  let (name, c) ← Property.anchorName s.cursor
  return { (s.allowKey false).emit (token name) with cursor := c }

def tagProperty (s : Layout) : Except Error Layout := do
  let s ← s.noteCandidate
  let (t, c) ← Property.tag s.inFlow s.cursor
  return { (s.allowKey false).emit t with cursor := c }

def blockScalar (literal : Bool) (s : Layout) : Except Error Layout := do
  let s ← s.dropCandidate
  let (text, c) ← BlockScalar.read literal s.columns.head? s.cursor
  let style := if literal then .literal else .folded
  return { (s.allowKey true).emit (.scalar text style) with cursor := c }

def quotedScalar (single : Bool) (s : Layout) : Except Error Layout := do
  let s ← s.noteCandidate
  let (text, c) ← QuotedScalar.read single s.cursor
  let style := if single then .singleQuoted else .doubleQuoted
  return { (s.allowKey false).emit (.scalar text style) with cursor := c }

def plainScalar (s : Layout) : Except Error Layout := do
  let s ← s.noteCandidate
  let p ← PlainScalar.read s.inFlow (s.columns.head?.elim 0 (· + 1)) s.cursor
  return { (s.allowKey p.brokenOff).emit (.scalar p.text .plain) with cursor := p.rest }

def startsPlain (inFlow : Bool) (c : Char) (t : Text) : Bool :=
  if c = '-' then !(t.head?.any isBlank)
  else if c = '?' || c = ':' then !inFlow && !atSpace t
  else !(isBlank c || isBreak c || c ∈ ",[]\x7b\x7d#&*!|>'\"%@\x60".toList)

/-- Reads the token that begins with the character `c` at the cursor, before the text `t`. -/
def token (c : Char) (t : Text) (s : Layout) : Except Error Layout :=
  let atMargin := s.cursor.column = 0
  if atMargin && c = '%' then s.directiveLine
  else if atMargin && c = '-' && atDocumentMark (c :: t) then s.documentMark .documentStart
  else if atMargin && c = '.' && atDocumentMark (c :: t) then s.documentMark .documentEnd
  else if c = '[' then s.flowStart .flowSequenceStart
  else if c = '{' then s.flowStart .flowMappingStart
  else if c = ']' then s.flowEnd .flowSequenceEnd
  else if c = '}' then s.flowEnd .flowMappingEnd
  else if c = ',' then s.flowSeparator
  else if c = '-' && atSpace t then s.sequenceEntry
  else if c = '?' && (s.inFlow || atSpace t) then s.explicitKey
  else if c = ':' && (s.inFlow || atSpace t) then s.mappingValue
  else if c = '*' then s.aliasOrAnchor .alias
  else if c = '&' then s.aliasOrAnchor .anchor
  else if c = '!' then s.tagProperty
  else if c = '|' && !s.inFlow then s.blockScalar true
  else if c = '>' && !s.inFlow then s.blockScalar false
  else if c = '\'' then s.quotedScalar true
  else if c = '"' then s.quotedScalar false
  else if startsPlain s.inFlow c t then s.plainScalar
  else .error .unexpectedCharacter

def skipped (s : Layout) : Layout :=
  let p := skipSpace s.inFlow s.cursor.rest s.cursor.line s.cursor.column s.keyAllowed false
  { s with cursor := p.1, keyAllowed := p.2 }

/-- Settles the layout at the cursor and reads the token there; `none` at the end. -/
def tokenHere (s : Layout) : Except Error (Option Layout) := do
  let s ← s.dropStale
  let s := s.closeTo s.cursor.column
  match s.cursor.rest with
  | [] => return none
  | c :: t => return some (← s.token c t)

def next (s : Layout) : Except Error (Option Layout) := s.skipped.tokenHere

def finish (s : Layout) : Except Error (List Token) := do
  let s ← s.closeAll.dropCandidate
  return s.emitted.reverse

def run : Nat → Layout → Except Error (List Token)
  | 0, _ => .error .unfinished
  | n + 1, s => do
    match ← s.next with
    | some s => run n s
    | none => s.finish

end Layout

def Token.ofText (t : Text) : Except Error (List Token) :=
  if t.all isAllowed then
    let t := unifyBreaks t
    (Layout.start t).run (t.length + 1)
  else .error .forbiddenCharacter

end VersionDrift.Yaml
