import VersionDrift.Yaml.Tokens
import VersionDrift.Yaml.Composition
import VersionDrift.Yaml.Resolution

/-!
# Documents

A text holds one document or none. Directives stand before an explicit start;
without one the first token already belongs to the root node. A text without
tokens means null. A document is composed first, and then its value is taken.
-/

set_option autoImplicit false

namespace VersionDrift.Yaml

/-- The tree of a text: its root, the nodes with anchors, and how many nodes and ends of
collections it has. -/
structure Document where
  root : Node
  anchors : Anchors
  size : Nat
deriving Repr

namespace Document

def defaultHandles : List (Text × Text) :=
  [("!".toList, "!".toList), ("!!".toList, "tag:yaml.org,2002:".toList)]

/-- Tag handles and the tokens after the directives; `version` tells that a version directive has
been read. -/
def directives : (version : Bool) → List (Text × Text) → List Token →
    Except Error (List (Text × Text) × List Token)
  | version, handles, .versionDirective major minor :: ts =>
    if version then .error .repeatedDirective
    else if major = 1 && (minor = 1 || minor = 2) then directives true handles ts
    else .error .unsupportedVersion
  | version, handles, .tagDirective handle stem :: ts =>
    if (handles.lookup handle).isSome then .error .repeatedDirective
    else directives version (handles ++ [(handle, stem)]) ts
  | _, handles, ts => .ok (handles ++ defaultHandles, ts)

def atBoundary : List Token → Bool
  | [] => true
  | t :: _ => match t with
    | .versionDirective .. | .tagDirective .. | .documentStart | .documentEnd => true
    | _ => false

def isDirective : Token → Bool
  | .versionDirective .. | .tagDirective .. => true
  | _ => false

/-- The content of a document, up to its end and beyond: nothing more may follow. -/
def compose (handles : List (Text × Text)) (explicit : Bool) (ts : List Token) :
    Except Error Document := do
  let content := if explicit && atBoundary ts then Composition.emptyScalar
    else Composition.node (4 * ts.length + 8) true false
  let (node, c) ← content.run ⟨ts, handles, .empty, 0⟩
  if c.tokens.all (· = .documentEnd) then return ⟨node, c.anchors, c.size⟩
  else throw .severalDocuments

def ofTokens : List Token → Except Error Document
  | [] => .ok ⟨.scalar none [] .plain, .empty, 0⟩
  | t :: ts =>
    if isDirective t || t = .documentStart then do
      match ← directives false [] (t :: ts) with
      | (handles, .documentStart :: ts) => compose handles true ts
      | _ => throw .expectedDocument
    else compose defaultHandles false (t :: ts)

def ofText (t : Text) : Except Error Document := do
  ofTokens (← Token.ofText t)

def value (d : Document) : Except Error Value := d.root.value d.anchors d.size

end Document

def Value.ofText (t : Text) : Except Error Value := do
  (← Document.ofText t).value

end VersionDrift.Yaml
