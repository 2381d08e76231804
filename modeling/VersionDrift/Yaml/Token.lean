import VersionDrift.Text.Basic

/-!
# Tokens

The tokens of a document. Indentation shows as start and end tokens of block
collections; the token for a key that is known only by its colon stands before
the key.
-/

set_option autoImplicit false

namespace VersionDrift.Yaml

inductive ScalarStyle where
  | plain
  | singleQuoted
  | doubleQuoted
  | literal
  | folded
deriving DecidableEq, Repr

inductive Token where
  | versionDirective (major minor : Nat)
  | tagDirective (handle stem : Text)
  | documentStart
  | documentEnd
  | blockSequenceStart
  | blockMappingStart
  | blockEnd
  | flowSequenceStart
  | flowSequenceEnd
  | flowMappingStart
  | flowMappingEnd
  | blockEntry
  | flowEntry
  | key
  | value
  | alias (name : Text)
  | anchor (name : Text)
  | tag (handle suffix : Text)
  | scalar (text : Text) (style : ScalarStyle)
deriving DecidableEq, Repr

end VersionDrift.Yaml
