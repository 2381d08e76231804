import VersionDrift.Decimal.Natural
import VersionDrift.Files.Path
import VersionDrift.Files.Error

/-!
# Disks

A disk holds entries at locations. Following a path goes through symbolic links; at
most forty of them, so that a loop of links ends. Reading gives the text of the
file that a path leads to. Replacing it writes a temporary file beside it, which
takes over its mode and then its place.
-/

set_option autoImplicit false

namespace VersionDrift

abbrev Location := List Text

-- contents are compared by the type's own instance, whatever else is imported
instance instDecidableEqContent : DecidableEq ByteArray := ByteArray.instDecidableEq

inductive Entry where
  | file (mode : Nat) (content : ByteArray)
  | directory
  | link (target : Text)
deriving DecidableEq

structure Disk where
  entries : List (Location × Entry)
  workDir : Location

namespace Disk

/-- The root is a directory on every disk. -/
def entry? (d : Disk) : Location → Option Entry
  | [] => some .directory
  | l => d.entries.lookup l

def putEntry (l : Location) (e : Entry) : List (Location × Entry) → List (Location × Entry)
  | [] => [(l, e)]
  | (k, f) :: es => if k = l then (l, e) :: es else (k, f) :: putEntry l e es

def put (d : Disk) (l : Location) (e : Entry) : Disk :=
  { d with entries := putEntry l e d.entries }

def remove (d : Disk) (l : Location) : Disk :=
  { d with entries := d.entries.filter (·.1 ≠ l) }

def nameLimit : Nat := 255

def pathLimit : Nat := 4095

def linkLimit : Nat := 40

def start (base : Location) (path : Text) : Location := if Path.isAbsolute path then [] else base

/-- Follows steps from a directory; `follow` goes on after a link. -/
def walkWith (d : Disk) (follow : Location → List Text → Except FileError Location) :
    Location → List Text → Except FileError Location
  | l, [] => .ok l
  | l, name :: names =>
    if d.entry? l ≠ some .directory then .error .notDirectory
    else if name = ['.'] then walkWith d follow l names
    else if name = ['.', '.'] then walkWith d follow l.tail names
    else if nameLimit < Text.byteCount name then .error .nameTooLong
    else match d.entry? (name :: l) with
      | none => .error .notFound
      | some (.link target) => follow (start l target) (Path.steps target ++ names)
      | some _ => walkWith d follow (name :: l) names

def walk (d : Disk) : (links : Nat) → Location → List Text → Except FileError Location
  | 0 => walkWith d fun _ _ => .error .tooManyLinks
  | links + 1 => walkWith d (walk d links)

/-- The location of the file or directory that a path leads to. -/
def resolve (d : Disk) (path : Text) : Except FileError Location :=
  if '\x00' ∈ path then .error .nulInPath
  else if path.isEmpty then .error .notFound
  else if pathLimit < Text.byteCount path then .error .nameTooLong
  else d.walk linkLimit (start d.workDir path) (Path.steps path)

def textOf (content : ByteArray) : Except FileError Text :=
  match content.utf8Decode? with
  | some cs => .ok cs.toList
  | none => .error .notText

def read (d : Disk) (path : Text) : Except FileError Text := do
  let l ← d.resolve path
  match d.entry? l with
  | some (.file _ content) => textOf content
  | _ => throw .isDirectory

def temporaryName (n : Nat) : Text := ".tmp".toList ++ Decimal.ofNat n

/-- A location in a directory that holds nothing yet, under a temporary name. -/
def free? (d : Disk) (directory : Location) : Option Location :=
  ((List.range (d.entries.length + 1)).map fun n => temporaryName n :: directory).find?
    fun l => (d.entry? l).isNone

def temporaryMode : Nat := 0o600

def write (l : Location) (content : ByteArray) (d : Disk) : Disk :=
  match d.entry? l with
  | some (.file mode _) => d.put l (.file mode content)
  | _ => d

def setMode (l : Location) (mode : Nat) (d : Disk) : Disk :=
  match d.entry? l with
  | some (.file _ content) => d.put l (.file mode content)
  | _ => d

def rename (source target : Location) (d : Disk) : Except FileError Disk :=
  match d.entry? source, d.entry? target with
  | none, _ => .error .notFound
  | _, some .directory => .error .isDirectory
  | some e, _ => .ok ((d.remove source).put target e)

/-- The disk with another content in the file that a path leads to. -/
def replace (d : Disk) (path content : Text) : Except FileError Disk := do
  let target ← d.resolve path
  match d.free? target.tail, d.entry? target with
  | some temporary, some (.file mode _) =>
    let d := (d.put temporary (.file temporaryMode .empty)).write temporary
      (String.ofList content).toUTF8
    (d.setMode temporary mode).rename temporary target
  | none, _ => throw (.failed "no free name".toList)
  | _, _ => throw .isDirectory

def makeDirectories (d : Disk) : Location → Disk
  | [] => d
  | name :: l =>
    let d := makeDirectories d l
    if (d.entry? (name :: l)).isSome then d else d.put (name :: l) .directory

def place (d : Disk) (l : Location) (e : Entry) : Disk := (d.makeDirectories l.tail).put l e

end Disk
end VersionDrift
