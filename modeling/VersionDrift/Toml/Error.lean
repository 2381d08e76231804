/-!
# Why a settings text is refused

One cause for each rule of the TOML notation that a text can break.
-/

set_option autoImplicit false

namespace VersionDrift.Toml

inductive Error where
  | forbiddenCharacter
  | unterminatedString
  | badEscape
  | expectedKey
  | expectedEquals
  | badValue
  | badNumber
  | badDateTime
  | expectedSeparator
  | unclosedHeader
  | trailingContent
  | repeatedKey
  | notATable
  | tooDeep
  | unfinished
deriving DecidableEq, Repr

def Error.message : Error → String
  | forbiddenCharacter => "control characters are not allowed"
  | unterminatedString => "a string is not closed"
  | badEscape => "unknown or incomplete escape sequence"
  | expectedKey => "expected a key"
  | expectedEquals => "expected `=` after a key"
  | badValue => "expected a value"
  | badNumber => "malformed number"
  | badDateTime => "malformed date or time"
  | expectedSeparator => "expected `,` or a closing bracket"
  | unclosedHeader => "a table header is not closed"
  | trailingContent => "expected the end of the line"
  | repeatedKey => "duplicate key"
  | notATable => "a key leads through a value that cannot be extended"
  | tooDeep => "values are nested too deeply"
  | unfinished => "the text was not read to its end"

end VersionDrift.Toml
