import VersionDrift.Yaml.Number

/-!
# Values

What a document means. Two values are the same when they agree up to the order of
mapping entries and up to the bang that begins a tag. A tagged value is neither
string, number nor mapping.
-/

set_option autoImplicit false

namespace VersionDrift.Yaml

inductive Value where
  | null
  | boolean (b : Bool)
  | number (n : Number)
  | string (t : Text)
  | sequence (items : List Value)
  | mapping (entries : List (Value × Value))
  | tagged (tag : Text) (value : Value)
deriving Repr

namespace Value

/-- A tag without the bang that begins it, unless there is nothing else. -/
def unbanged : Text → Text
  | '!' :: c :: t => c :: t
  | t => t

mutual

def same : Value → Value → Bool
  | null, null => true
  | boolean a, boolean b => a = b
  | number m, number n => m.same n
  | string s, string t => s = t
  | sequence xs, sequence ys => sameItems xs ys
  | mapping xs, mapping ys => xs.length = ys.length && sameEntries xs ys
  | tagged s x, tagged t y => unbanged s = unbanged t && same x y
  | _, _ => false

def sameItems : List Value → List Value → Bool
  | [], [] => true
  | x :: xs, y :: ys => same x y && sameItems xs ys
  | _, _ => false

def sameEntries : List (Value × Value) → List (Value × Value) → Bool
  | [], _ => true
  | (k, v) :: xs, ys => ys.any (fun (l, w) => same k l && same v w) && sameEntries xs ys

end

def untagged : Value → Value
  | tagged _ v => untagged v
  | v => v

def entry? (key : Text) : List (Value × Value) → Option Value
  | [] => none
  | (.string k, v) :: es => if k = key then some v else entry? key es
  | _ :: es => entry? key es

def get? (key : Text) (v : Value) : Option Value :=
  match v.untagged with
  | mapping es => entry? key es
  | _ => none

end Value
end VersionDrift.Yaml
