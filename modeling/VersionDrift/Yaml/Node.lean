import VersionDrift.Yaml.Token

/-!
# Nodes

The tree that the tokens of a document spell. An alias names its anchor by a
number. `Anchors` gives the numbers: a name takes the count of the names before
it, and what a number stands for in the end is the node that began last with it.
-/

set_option autoImplicit false

namespace VersionDrift.Yaml

inductive Node where
  | scalar (tag : Option Text) (text : Text) (style : ScalarStyle)
  | sequence (tag : Option Text) (items : List Node)
  | mapping (tag : Option Text) (entries : List (Node × Node))
  | alias (anchor : Nat)
deriving Repr

/-- A node with an anchor: its number, and how many anchored nodes began before it. -/
structure AnchoredNode where
  number : Nat
  begun : Nat
  node : Node
deriving Repr

structure Anchors where
  names : List (Text × Nat)
  begun : Nat
  nodes : List AnchoredNode
deriving Repr

namespace Anchors

def empty : Anchors := ⟨[], 0, []⟩

@[simp] theorem nodes_empty : empty.nodes = [] := rfl

def declare (name : Text) (a : Anchors) : Anchors :=
  ⟨(name, a.names.length) :: a.names.filter (·.1 ≠ name), a.begun + 1, a.nodes⟩

def number? (name : Text) (a : Anchors) : Option Nat := a.names.lookup name

def bind (before : Anchors) (node : Node) (a : Anchors) : Anchors :=
  { a with nodes := ⟨before.names.length, before.begun, node⟩ :: a.nodes }

/-- Of two anchored nodes the one that began last. -/
def later : Option AnchoredNode → AnchoredNode → Option AnchoredNode
  | none, n => some n
  | some b, n => if b.begun < n.begun then some n else some b

def node? (number : Nat) (a : Anchors) : Option Node :=
  ((a.nodes.filter (·.number = number)).foldl later none).map (·.node)

end Anchors
end VersionDrift.Yaml
