/-!
# Why a document is refused

One cause for each rule of the notation or of its loading that a text can break.
-/

set_option autoImplicit false

namespace VersionDrift.Yaml

inductive Error where
  | forbiddenCharacter
  | unexpectedCharacter
  | tabInIndentation
  | unterminatedScalar
  | markInsideScalar
  | badEscape
  | colonInsideFlow
  | badBlockHeader
  | badAnchor
  | badTag
  | badDirective
  | repeatedDirective
  | unsupportedVersion
  | undefinedHandle
  | missingColon
  | misplacedEntry
  | misplacedKey
  | misplacedValue
  | expectedNode
  | expectedEntry
  | expectedKey
  | expectedFlowEntry
  | expectedDocument
  | unfinished
  | severalDocuments
  | unknownAnchor
  | tooDeep
  | tooManyAliases
  | repeatedKey
  | numberOutOfRange
  | mistagged
deriving DecidableEq, Repr

namespace Error

def message : Error → String
  | forbiddenCharacter => "control characters are not allowed"
  | unexpectedCharacter => "found a character that cannot start any token"
  | tabInIndentation => "found a tab where an indentation space is expected"
  | unterminatedScalar => "found the end of the text inside a quoted scalar"
  | markInsideScalar => "found a document marker inside a quoted scalar"
  | badEscape => "found an unknown or incomplete escape sequence"
  | colonInsideFlow => "found an unexpected ':' inside a flow collection"
  | badBlockHeader => "found a malformed block scalar header"
  | badAnchor => "found a malformed anchor or alias"
  | badTag => "found a malformed tag"
  | badDirective => "found a malformed directive"
  | repeatedDirective => "found a repeated directive"
  | unsupportedVersion => "found an incompatible document version"
  | undefinedHandle => "found an undefined tag handle"
  | missingColon => "could not find the expected ':'"
  | misplacedEntry => "block sequence entries are not allowed here"
  | misplacedKey => "mapping keys are not allowed here"
  | misplacedValue => "mapping values are not allowed here"
  | expectedNode => "did not find the expected node content"
  | expectedEntry => "did not find the expected '-' indicator"
  | expectedKey => "did not find the expected key"
  | expectedFlowEntry => "did not find the expected ',' or closing bracket"
  | expectedDocument => "did not find the expected document start"
  | unfinished => "the text was not read to its end"
  | severalDocuments => "more than one document in the text"
  | unknownAnchor => "unknown anchor"
  | tooDeep => "collections are nested too deeply"
  | tooManyAliases => "aliases are followed too often"
  | repeatedKey => "a mapping holds the same key twice"
  | numberOutOfRange => "an integer does not fit 64 bits"
  | mistagged => "a scalar does not fit its tag"

end Error
end VersionDrift.Yaml
