/-!
# What can be wrong with a YAML text

Each constructor is one cause for which a text is not read.  Where in the text it was found is not
kept.
-/

namespace ConfigTree.Yaml

/-- Why a text is not read. -/
inductive Error where
  /-- A control character or a code point that no text may contain. -/
  | forbiddenCharacter (c : Char)
  /-- A character that starts no token. -/
  | noToken (c : Char)
  /-- A tab where the indentation has to be made of spaces. -/
  | tabIndentation
  /-- A line that has to be a key is not followed by a colon. -/
  | keyWithoutValue
  /-- A dash, a question mark or a colon where no entry may begin. -/
  | entryNotAllowed
  | badDirective
  | badAnchor
  | badTag
  /-- The header line of a block scalar holds something else. -/
  | badBlockHeader
  | badEscape
  /-- A quoted scalar has no end. -/
  | unclosedQuote
  /-- A document mark inside a quoted scalar. -/
  | documentMarkInQuotes
  /-- A colon in a flow collection is followed by an indicator. -/
  | unexpectedColon
  /-- The tokens do not form a node at this place. -/
  | expectedNode
  /-- A collection is neither continued nor closed. -/
  | expectedEntry
  | expectedDocumentStart
  | undefinedTagHandle
  | duplicateDirective
  | unsupportedVersion
  | severalDocuments
  | unknownAnchor
  | duplicateKey
  /-- Collections are nested too deeply. -/
  | tooDeep
  /-- Aliases are followed too often. -/
  | tooManyAliases
  /-- A scalar does not have the form that its core tag asks for. -/
  | tagMismatch
  /-- An integer beyond 64 bits that still fits into 128. -/
  | integerOutOfRange
  /-- The fuel of a bounded search is used up. -/
  | outOfFuel
deriving DecidableEq, Repr

/-- The message of an error. -/
def Error.message : Error → String
  | .forbiddenCharacter _ => "control characters are not allowed"
  | .noToken _ => "found character that cannot start any token"
  | .tabIndentation => "found a tab character that violates indentation"
  | .keyWithoutValue => "could not find expected ':'"
  | .entryNotAllowed => "block entries are not allowed in this context"
  | .badDirective => "invalid directive"
  | .badAnchor => "invalid anchor or alias"
  | .badTag => "invalid tag"
  | .badBlockHeader => "invalid header of a block scalar"
  | .badEscape => "invalid escape in a quoted scalar"
  | .unclosedQuote => "found unexpected end of stream in a quoted scalar"
  | .documentMarkInQuotes => "found unexpected document indicator in a quoted scalar"
  | .unexpectedColon => "found unexpected ':'"
  | .expectedNode => "did not find expected node content"
  | .expectedEntry => "did not find expected key, entry or end of a collection"
  | .expectedDocumentStart => "did not find expected document start"
  | .undefinedTagHandle => "found undefined tag handle"
  | .duplicateDirective => "found duplicate directive"
  | .unsupportedVersion => "found incompatible YAML document"
  | .severalDocuments => "more than one document"
  | .unknownAnchor => "unknown anchor"
  | .duplicateKey => "duplicate key"
  | .tooDeep => "recursion limit exceeded"
  | .tooManyAliases => "repetition limit exceeded"
  | .tagMismatch => "a scalar does not have the form of its tag"
  | .integerOutOfRange => "integer out of range"
  | .outOfFuel => "the text was not read to its end"

end ConfigTree.Yaml
