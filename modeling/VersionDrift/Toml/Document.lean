import VersionDrift.Toml.Reading

/-!
# Settings texts

A text is read line by line. A header opens a table; the keys after it belong to
that table, and those before the first header to the root.
-/

set_option autoImplicit false

namespace VersionDrift.Toml

/-- The root table so far, and the path to the open one. -/
structure Document where
  root : Entries
  path : List Text
deriving Repr

namespace Document

def empty : Document := ⟨[], []⟩

def change (path : List Text) (f : Value.Change) (d : Document) : Except Error Document := do
  let (_, root) ← Value.modifyTable true f path .header d.root
  return { d with root := root }

def header (close : Text) (t : Text) : Except Error ((List Text × Text) × Text) := do
  let (k, t) ← key t
  match Text.after? close t with
  | some t => return (k, t)
  | none => throw .unclosedHeader

def line (t : Text) (d : Document) : Except Error (Document × Text) := do
  match t with
  | '[' :: '[' :: t =>
    let ((path, last), t) ← header "]]".toList t
    let d ← d.change path (Value.openElement last)
    return ({ d with path := path ++ [last] }, t)
  | '[' :: t =>
    let ((path, last), t) ← header [']'] t
    let d ← d.change path (Value.openTable last)
    return ({ d with path := path ++ [last] }, t)
  | t =>
    let ((path, last), t) ← key t
    let (v, t) ← readValue (← afterEquals t)
    return (← d.change d.path (Value.addDotted path last v), t)

def lines : Nat → Text → Document → Except Error Document
  | 0, _, _ => .error .unfinished
  | n + 1, t, d => do
    match ← skipSpace false t with
    | [] => return d
    | t =>
      let (d, t) ← d.line t
      lines n (← endLine t) d

end Document

def read (t : Text) : Except Error Entries := do
  let t := match t with
    | '\uFEFF' :: r => r
    | r => r
  return (← Document.empty |>.lines (t.length + 1) t).root

end VersionDrift.Toml
