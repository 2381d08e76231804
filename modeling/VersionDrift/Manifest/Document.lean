import VersionDrift.Yaml.Document
import VersionDrift.Manifest.Located

/-!
# Manifests

A manifest is a YAML document with a version at `context.version`. It is read as a
value and rewritten as a text: only the token of the version is replaced, and the
new text has to read back with the new version. What reads a text as a value is a
parameter of `loadWith` and `rewriteWith`.
-/

set_option autoImplicit false

namespace VersionDrift

structure Manifest where
  source : Text
  version : Text
deriving DecidableEq, Repr

inductive LayoutFault where
  | contextNotMapping
  | missingContext
  | missingVersion
  | versionNotString
  | unlocated (why : Unlocated)
  | sourceDiffers (version token : Text)
  | readsBack (version wanted : Text)
deriving DecidableEq, Repr

def LayoutFault.message : LayoutFault → Text
  | contextNotMapping => "`context` is not a mapping".toList
  | missingContext => "missing `context` section".toList
  | missingVersion => "missing `context.version` field".toList
  | versionNotString => "`context.version` is not a string".toList
  | unlocated why => why.message.toList
  | sourceDiffers version token =>
    "`context.version` reads as '".toList ++ version ++ "' but its source text is '".toList ++
      token ++ "'".toList
  | readsBack version wanted =>
    "rewritten version reads back as '".toList ++ version ++ "' instead of '".toList ++
      wanted ++ "'".toList

inductive ManifestFault where
  | notYaml (error : Yaml.Error)
  | layout (fault : LayoutFault)
deriving DecidableEq, Repr

namespace Manifest

open Yaml (Value Number)

inductive Stated where
  | string (t : Text)
  | number (n : Number)
deriving DecidableEq, Repr

def stated (v : Value) : Except LayoutFault Stated :=
  match v.get? contextKey with
  | none => .error .missingContext
  | some (.mapping es) =>
    match Value.entry? versionKey es with
    | some (.string t) => .ok (.string t)
    | some (.number n) => .ok (.number n)
    | some .null | none => .error .missingVersion
    | some _ => .error .versionNotString
  | some _ => .error .contextNotMapping

/-- Numbers stand for their source text where it is found, so that `1.20` stays `1.20`. -/
def versionOf (source : Text) : Stated → Text
  | .string t => t
  | .number n =>
    match Located.find source with
    | .ok l => l.value
    | .error _ => n.text

/-- Whatever tells the value of a text. -/
abbrev Reader := Text → Except Yaml.Error Value

def loadWith (read : Reader) (source : Text) : Except ManifestFault Manifest :=
  match read source with
  | .error e => .error (.notYaml e)
  | .ok v =>
    match stated v with
    | .error fault => .error (.layout fault)
    | .ok s => .ok ⟨source, versionOf source s⟩

def locate (m : Manifest) : Except LayoutFault Located :=
  match Located.find m.source with
  | .error why => .error (.unlocated why)
  | .ok l => if l.value = m.version then .ok l else .error (.sourceDiffers m.version l.value)

/-- The manifest with the version `v` in place of its own. -/
def rewriteWith (read : Reader) (v : Text) (m : Manifest) : Except ManifestFault Manifest :=
  match m.locate with
  | .error fault => .error (.layout fault)
  | .ok l =>
    match loadWith read (l.before ++ l.style.encode v ++ l.after) with
    | .error e => .error e
    | .ok new => if new.version = v then .ok new else .error (.layout (.readsBack new.version v))

def load (source : Text) : Except ManifestFault Manifest := loadWith Value.ofText source

def rewrite (v : Text) (m : Manifest) : Except ManifestFault Manifest :=
  rewriteWith Value.ofText v m

end Manifest
end VersionDrift
