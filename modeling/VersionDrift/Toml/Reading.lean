import VersionDrift.Toml.Quoted
import VersionDrift.Toml.Scalar

/-!
# Keys and values

Every step of the functions on values takes a character or passes one call on, so
the length of the text bounds them; how deep values nest has a bound of its own.
Line breaks, comments and a last comma are allowed in brackets and in braces.
-/

set_option autoImplicit false

namespace VersionDrift.Toml

def isBareKey (c : Char) : Bool := c.isAlphanum || c = '_' || c = '-'

def keyPart : Text → Except Error (Text × Text)
  | [] => .error .expectedKey
  | c :: t =>
    if c = '"' || c = '\'' then Quoted.read c false t
    else
      let key := (c :: t).takeWhile isBareKey
      if key.isEmpty then .error .expectedKey else .ok (key, (c :: t).drop key.length)

def keyFrom : Nat → List Text → Text → Except Error ((List Text × Text) × Text)
  | 0, _, _ => .error .unfinished
  | n + 1, before, t => do
    let (key, t) ← keyPart (skipGap t)
    match skipGap t with
    | '.' :: t => keyFrom n (before ++ [key]) t
    | t => return ((before, key), t)

def key (t : Text) : Except Error ((List Text × Text) × Text) := keyFrom (t.length + 1) [] t

def afterEquals : Text → Except Error Text
  | '=' :: t => .ok (skipGap t)
  | _ => .error .expectedEquals

mutual

def value : Nat → (depth : Nat) → Text → Except Error (Value × Text)
  | 0, _, _ => .error .unfinished
  | n + 1, depth, t =>
    match t with
    | [] => .error .badValue
    | c :: r =>
      if c = '"' || c = '\'' then (Quoted.read c true r).map fun (s, r) => (.string s, r)
      else if c = '[' then
        match depth with
        | 0 => .error .tooDeep
        | depth + 1 => (items n depth r).map fun (vs, r) => (.array false vs, r)
      else if c = '{' then
        match depth with
        | 0 => .error .tooDeep
        | depth + 1 => (entries n depth [] r).map fun (es, r) => (.table .braces es, r)
      else Scalar.read t

def items : Nat → (depth : Nat) → Text → Except Error (List Value × Text)
  | 0, _, _ => .error .unfinished
  | n + 1, depth, t => do
    match ← skipSpace false t with
    | ']' :: t => return ([], t)
    | t =>
      let (v, t) ← value n depth t
      match ← skipSpace false t with
      | ']' :: t => return ([v], t)
      | ',' :: t =>
        let (vs, t) ← items n depth t
        return (v :: vs, t)
      | _ => throw .expectedSeparator

def entries : Nat → (depth : Nat) → Entries → Text → Except Error (Entries × Text)
  | 0, _, _, _ => .error .unfinished
  | n + 1, depth, es, t => do
    match ← skipSpace false t with
    | '}' :: t => return (es, t)
    | t =>
      let ((path, last), t) ← key t
      let (v, t) ← value n depth (← afterEquals t)
      let (_, es) ← Value.addDotted path last v .header es
      match ← skipSpace false t with
      | '}' :: t => return (es, t)
      | ',' :: t => entries n depth es t
      | _ => throw .expectedSeparator

end

def depthLimit : Nat := 80

def readValue (t : Text) : Except Error (Value × Text) := value (2 * t.length + 2) depthLimit t

end VersionDrift.Toml
