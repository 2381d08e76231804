import VersionDrift.Yaml.Node
import VersionDrift.Yaml.Value

/-!
# Values of nodes

A plain scalar spells null, a truth value, a number or else a string; any other
scalar is a string. A tag of the core schema asks for one of these, a tag that
begins with a bang makes a tagged value, and any other tag a string. Collections
nest 128 deep at most, and the aliases that are followed are counted against a
bound.
-/

set_option autoImplicit false

namespace VersionDrift.Yaml

namespace Resolution

def coreTag (name : String) : Text := "tag:yaml.org,2002:".toList ++ name.toList

def isNull (t : Text) : Bool :=
  ["null".toList, "Null".toList, "NULL".toList, "~".toList].contains t

def boolean? (t : Text) : Option Bool :=
  if ["true".toList, "True".toList, "TRUE".toList].contains t then some true
  else if ["false".toList, "False".toList, "FALSE".toList].contains t then some false
  else none

def plain (t : Text) : Except Error Value :=
  if t.isEmpty || isNull t then .ok .null
  else match boolean? t with
    | some b => .ok (.boolean b)
    | none => (Number.ofText? t).map fun n => n.elim (.string t) .number

def demanded {α : Type} : Option α → Except Error α
  | some a => .ok a
  | none => .error .mistagged

/-- A scalar under a tag that makes no tagged value of it. -/
def underTag (tag t : Text) : Except Error Value :=
  if tag = coreTag "bool" then (demanded (boolean? t)).map .boolean
  else if tag = coreTag "int" then do
    return .number (.integer (← demanded (← Number.fixedInteger? t)))
  else if tag = coreTag "float" then (demanded (Number.float? t)).map fun x => .number (.float x)
  else if tag = coreTag "null" then if isNull t then .ok .null else .error .mistagged
  else .ok (.string t)

/-- The name of a tagged value: the tag without its bang, unless the bang is all. -/
def localTag? : Option Text → Option Text
  | some ('!' :: t) => some (Value.unbanged ('!' :: t))
  | _ => none

def markOf (tagRead : Bool) (tag : Option Text) : Option Text :=
  if tagRead then none else localTag? tag

def marked (mark : Option Text) (v : Value) : Value := mark.elim v fun t => .tagged t v

def scalar (tagRead : Bool) (tag : Option Text) (text : Text) (style : ScalarStyle) :
    Except Error Value :=
  let mark := markOf tagRead tag
  match if tagRead || mark.isSome then none else tag, style with
  | some tag, _ => underTag tag text
  | none, .plain => (plain text).map (marked mark)
  | none, _ => .ok (marked mark (.string text))

abbrev Loading := StateT Nat (Except Error)

/-- The node that an alias stands for, which is read as if no tag stood before it. -/
def follow (anchors : Anchors) (tagRead : Bool) : Node → Loading (Bool × Node)
  | .alias k => do
    match ← get with
    | 0 => throw .tooManyAliases
    | n + 1 =>
      set n
      match anchors.node? k with
      | some node => return (false, node)
      | none => throw .unknownAnchor
  | node => return (tagRead, node)

def entries (key value : Node → Loading Value) :
    List (Value × Value) → List (Node × Node) → Loading (List (Value × Value))
  | done, [] => return done.reverse
  | done, (k, v) :: rest => do
    let k ← key k
    if done.any fun e => e.1.same k then throw .repeatedKey
    entries key value ((k, ← value v) :: done) rest

/-- The value of a node that is no alias. Its own tag counts unless `tagRead`; the reading `inner`
gives what a collection holds, `none` when no collection may stand here. The keys of a tagged
mapping are read without their own tags. -/
def contentWith (inner : Option (Bool → Node → Loading Value)) (tagRead : Bool) :
    Node → Loading Value
  | .scalar tag text style => scalar tagRead tag text style
  | .sequence tag items =>
    match inner with
    | none => throw .tooDeep
    | some read => return marked (markOf tagRead tag) (.sequence (← items.mapM (read false)))
  | .mapping tag es =>
    let mark := markOf tagRead tag
    match inner with
    | none => throw .tooDeep
    | some read =>
      return marked mark (.mapping (← entries (read (tagRead || mark.isSome)) (read false) [] es))
  | .alias _ => throw .unknownAnchor

def valueWith (anchors : Anchors) (inner : Option (Bool → Node → Loading Value)) (tagRead : Bool)
    (node : Node) : Loading Value := do
  let (tagRead, node) ← follow anchors tagRead node
  contentWith inner tagRead node

/-- The value of a node inside which collections nest `depth` deep at most. -/
def value (anchors : Anchors) : (depth : Nat) → (tagRead : Bool) → Node → Loading Value
  | 0 => valueWith anchors none
  | depth + 1 => valueWith anchors (some (value anchors depth))

def depthLimit : Nat := 128

/-- Aliases that may be followed for each node, and each end of a collection, of the document. -/
def aliasesPerNode : Nat := 100

end Resolution

/-- The value of the root of a document with these anchors; `size` counts its nodes and the ends of
its collections. -/
def Node.value (anchors : Anchors) (size : Nat) (root : Node) : Except Error Value :=
  (Resolution.value anchors Resolution.depthLimit false root).run'
    (Resolution.aliasesPerNode * size)

end VersionDrift.Yaml
