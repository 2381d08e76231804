import VersionDrift.Settings.Fault
import VersionDrift.Toml.Document
import VersionDrift.Text.Escaped
import VersionDrift.Decimal.Shortest
import VersionDrift.Decimal.Positional

/-!
# Settings files

A settings file has two sections with paths, and the stem of the markers. The
entries of a table are taken in the order of their keys, and the first that does
not fit decides. A section may be an array of its values instead.
-/

set_option autoImplicit false

namespace VersionDrift

structure HeaderSection where
  path : Option Text
  stem : Option Text
deriving DecidableEq, Repr

structure ManifestSection where
  path : Option Text
deriving DecidableEq, Repr

structure Configuration where
  header : HeaderSection
  manifest : ManifestSection
deriving DecidableEq, Repr

namespace Configuration

open Toml (Value)
open Decimal

def empty : Configuration := ⟨⟨none, none⟩, ⟨none⟩⟩

def floatText : Toml.Float → Except SettingsFault Text
  | .nan => .ok "NaN".toList
  | .infinite negative => .ok (if negative then "-inf".toList else "inf".toList)
  | .decimal negative s =>
    match Binary64.ofScientific negative s with
    | .finite _ m q =>
      let sign : Text := if negative then ['-'] else []
      if m = 0 then .ok (sign ++ "0.0".toList)
      else
        let s := Shortest.ofFinite m q
        let ds := ofNat s.digits
        .ok (sign ++ positional ds (ds.length + s.exponent))
    | _ => .error .numberTooLarge

def integerText (n : Int) : Except SettingsFault Text :=
  let shown := "integer `".toList ++ ofInt n ++ "`".toList
  if -Int.pow 2 63 ≤ n && n < Int.pow 2 64 then .ok shown
  else if -Int.pow 2 127 ≤ n && n < Int.pow 2 127 then .ok (shown ++ " as i128".toList)
  else if 0 ≤ n && n < Int.pow 2 128 then .ok (shown ++ " as u128".toList)
  else .error .numberTooLarge

def description : Value → Except SettingsFault Text
  | .string t => .ok ("string ".toList ++ Text.escaped t)
  | .integer n => integerText n
  | .float x => (floatText x).map fun t => "floating point `".toList ++ t ++ "`".toList
  | .boolean b => .ok (if b then "boolean `true`".toList else "boolean `false`".toList)
  | .array _ _ => .ok "sequence".toList
  | .dateTime _ => .ok "map".toList
  | .table _ _ => .ok "map".toList

def mismatched {α : Type} (v : Value) (expected : String) : Except SettingsFault α := do
  throw (.invalidType (← description v) expected.toList)

def textOf (expected : String) : Value → Except SettingsFault Text
  | .string t => .ok t
  | v => mismatched v expected

def pathOf (v : Value) : Except SettingsFault Text := textOf "path string" v

def stemOf (v : Value) : Except SettingsFault Text := textOf "a string" v

def dateTimeField : Text := "$__toml_private_datetime".toList

def pathField : Text := "path".toList

def stemField : Text := "prefix".toList

def headerField (s : HeaderSection) : Text × Value → Except SettingsFault HeaderSection
  | (name, v) =>
    if name = pathField then (pathOf v).map fun t => { s with path := some t }
    else if name = stemField then (stemOf v).map fun t => { s with stem := some t }
    else .error (.unknownField name [pathField, stemField])

def headerOf : Value → Except SettingsFault HeaderSection
  | .table _ es => es.foldlM headerField ⟨none, none⟩
  | .dateTime _ => .error (.unknownField dateTimeField [pathField, stemField])
  | .array _ [] => .error (.tooShort 0 "struct HeaderSection".toList 2)
  | .array _ [p] => do
    let _ ← pathOf p
    throw (.tooShort 1 "struct HeaderSection".toList 2)
  | .array _ (p :: s :: _) => return ⟨some (← pathOf p), some (← stemOf s)⟩
  | v => mismatched v "struct HeaderSection"

def manifestField (_ : ManifestSection) : Text × Value → Except SettingsFault ManifestSection
  | (name, v) =>
    if name = pathField then (pathOf v).map fun t => ⟨some t⟩
    else .error (.unknownField name [pathField])

def manifestOf : Value → Except SettingsFault ManifestSection
  | .table _ es => es.foldlM manifestField ⟨none⟩
  | .dateTime _ => .error (.unknownField dateTimeField [pathField])
  | .array _ [] => .error (.tooShort 0 "struct ManifestSection".toList 1)
  | .array _ (p :: _) => return ⟨some (← pathOf p)⟩
  | v => mismatched v "struct ManifestSection"

def headerName : Text := "header".toList

def manifestName : Text := "manifest".toList

def field (c : Configuration) : Text × Value → Except SettingsFault Configuration
  | (name, v) =>
    if name = headerName then (headerOf v).map fun s => { c with header := s }
    else if name = manifestName then (manifestOf v).map fun s => { c with manifest := s }
    else .error (.unknownField name [headerName, manifestName])

def ofText (t : Text) : Except SettingsFault Configuration :=
  match Toml.read t with
  | .error e => .error (.unreadable e)
  | .ok es => es.foldlM field empty

end Configuration
end VersionDrift
