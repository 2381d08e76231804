import VersionDrift.Yaml.Node
import VersionDrift.Yaml.Error

/-!
# Nodes from tokens

Each function reads the tokens of one construct. A call either takes a token or
is the first of a construct that does, so a bound of four calls for each token is
never reached. The tag `!` alone counts as a tag on every node: a scalar keeps it,
too, and is a tagged value, which is neither a string nor a number. So the entry
`version: ! 1.20` is refused as the entry `version: !foo 1.20` is.
-/

set_option autoImplicit false

namespace VersionDrift.Yaml

/-- The tokens left, the tag handles of the document, its anchors, and how many nodes and ends of
collections have been read. -/
structure Composition where
  tokens : List Token
  handles : List (Text × Text)
  anchors : Anchors
  size : Nat
deriving Repr

namespace Composition

abbrev Reading := StateT Composition (Except Error)

def peek : Reading (Option Token) := return (← get).tokens.head?

def drop : Reading Unit := modify fun c => { c with tokens := c.tokens.tail }

def count : Reading Unit := modify fun c => { c with size := c.size + 1 }

def emptyScalar : Reading Node := do
  count
  return .scalar none [] .plain

def resolve (handle suffix : Text) : Reading Text := do
  if handle.isEmpty then return suffix
  match (← get).handles.lookup handle with
  | some stem => return stem ++ suffix
  | none => throw .undefinedHandle

/-- Anchor and tag before a node, in either order. -/
def properties : Reading (Option Text × Option Text) := do
  let anchor? : Reading (Option Text) := do
    match ← peek with
    | some (.anchor name) => drop; return some name
    | _ => return none
  let tag? : Reading (Option Text) := do
    match ← peek with
    | some (.tag handle suffix) => drop; return some (← resolve handle suffix)
    | _ => return none
  match ← anchor? with
  | some name => return (some name, ← tag?)
  | none =>
    let tag ← tag?
    return (← if tag.isSome then anchor? else pure none, tag)

def declare : Option Text → Reading Unit
  | some name => modify fun c => { c with anchors := c.anchors.declare name }
  | none => return ()

/-- Records a node for its anchor, which was declared when `before` stood. -/
def record (anchor : Option Text) (before : Anchors) (node : Node) : Reading Node := do
  if anchor.isSome then
    modify fun c => { c with anchors := before.bind node c.anchors }
  return node

def bareNode (anchor tag : Option Text) : Reading Node :=
  if anchor.isSome || tag.isSome then return .scalar tag [] .plain else throw .expectedNode

def flowSeparator (first : Bool) : Reading Unit := do
  if !first then
    if (← peek) = some .flowEntry then drop else throw .expectedFlowEntry

def leavesEmpty (ends : List Token) : Reading Bool := do
  match ← peek with
  | some t => return t ∈ ends
  | none => return false

mutual

/-- A node; block collections and sequences without indentation are allowed as told. -/
def node : Nat → (block indentless : Bool) → Reading Node
  | 0, _, _ => throw .unfinished
  | n + 1, block, indentless => do
    match ← peek with
    | some (.alias name) =>
      drop; count
      match (← get).anchors.number? name with
      | some k => return .alias k
      | none => throw .unknownAnchor
    | _ =>
      let (anchor, tag) ← properties
      let before := (← get).anchors
      declare anchor
      count
      let result ← match ← peek with
        | some (.scalar text style) => drop; pure (.scalar tag text style)
        | some .flowSequenceStart => drop; pure (.sequence tag (← flowItems n true))
        | some .flowMappingStart => drop; pure (.mapping tag (← flowEntries n true))
        | some .blockEntry =>
          if indentless then pure (.sequence tag (← indentlessItems n)) else bareNode anchor tag
        | some .blockSequenceStart =>
          if block then drop; pure (.sequence tag (← blockItems n)) else bareNode anchor tag
        | some .blockMappingStart =>
          if block then drop; pure (.mapping tag (← blockEntries n)) else bareNode anchor tag
        | _ => bareNode anchor tag
      record anchor before result

def blockItems : Nat → Reading (List Node)
  | 0 => throw .unfinished
  | n + 1 => do
    match ← peek with
    | some .blockEntry =>
      drop
      let item ← if ← leavesEmpty [.blockEntry, .blockEnd] then emptyScalar else node n true false
      return item :: (← blockItems n)
    | some .blockEnd => drop; count; return []
    | _ => throw .expectedEntry

def indentlessItems : Nat → Reading (List Node)
  | 0 => throw .unfinished
  | n + 1 => do
    match ← peek with
    | some .blockEntry =>
      drop
      let item ← if ← leavesEmpty [.blockEntry, .key, .value, .blockEnd] then emptyScalar
        else node n true false
      return item :: (← indentlessItems n)
    | _ => count; return []

def blockEntries : Nat → Reading (List (Node × Node))
  | 0 => throw .unfinished
  | n + 1 => do
    match ← peek with
    | some .key =>
      drop
      let key ← blockPart n
      let value ← match ← peek with
        | some .value => drop; blockPart n
        | _ => emptyScalar
      return (key, value) :: (← blockEntries n)
    | some .blockEnd => drop; count; return []
    | _ => throw .expectedKey

def blockPart : Nat → Reading Node
  | 0 => throw .unfinished
  | n + 1 => do
    if ← leavesEmpty [.key, .value, .blockEnd] then emptyScalar else node n true true

def flowItems : Nat → (first : Bool) → Reading (List Node)
  | 0, _ => throw .unfinished
  | n + 1, first => do
    if (← peek) = some .flowSequenceEnd then drop; count; return []
    flowSeparator first
    match ← peek with
    | some .flowSequenceEnd => drop; count; return []
    | some .key =>
      drop; count
      let entry ← flowPair n
      count
      return .mapping none [entry] :: (← flowItems n false)
    | _ =>
      let item ← node n false false
      return item :: (← flowItems n false)

/-- The only entry of a mapping inside a flow sequence. A key that is left out takes the token
after it along. -/
def flowPair : Nat → Reading (Node × Node)
  | 0 => throw .unfinished
  | n + 1 => do
    let key ← if ← leavesEmpty [.value, .flowEntry, .flowSequenceEnd] then drop; emptyScalar
      else node n false false
    let value ← match ← peek with
      | some .value =>
        drop
        if ← leavesEmpty [.flowEntry, .flowSequenceEnd] then emptyScalar else node n false false
      | _ => emptyScalar
    return (key, value)

def flowEntries : Nat → (first : Bool) → Reading (List (Node × Node))
  | 0, _ => throw .unfinished
  | n + 1, first => do
    if (← peek) = some .flowMappingEnd then drop; count; return []
    flowSeparator first
    match ← peek with
    | some .flowMappingEnd => drop; count; return []
    | some .key =>
      drop
      let key ← if ← leavesEmpty [.value, .flowEntry, .flowMappingEnd] then emptyScalar
        else node n false false
      let value ← match ← peek with
        | some .value =>
          drop
          if ← leavesEmpty [.flowEntry, .flowMappingEnd] then emptyScalar
          else node n false false
        | _ => emptyScalar
      return (key, value) :: (← flowEntries n false)
    | _ =>
      let key ← node n false false
      let value ← emptyScalar
      return (key, value) :: (← flowEntries n false)

end

end Composition
end VersionDrift.Yaml
