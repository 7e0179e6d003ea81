import ConfigTree.Yaml.Error

/-!
# Tokens of YAML

A text is first cut into tokens.  Indentation is turned into tokens as well: where a block
collection starts and ends there is a token for it, so the structure of a text can be read off its
tokens alone.
-/

namespace ConfigTree.Yaml

/-- A token. -/
inductive Token where
  | versionDirective (major minor : Nat)
  | tagDirective (handle replacement : String)
  | documentStart
  | documentEnd
  | blockSequenceStart
  | blockMappingStart
  /-- The end of a block collection. -/
  | blockEnd
  | flowSequenceStart
  | flowSequenceEnd
  | flowMappingStart
  | flowMappingEnd
  /-- The dash of a block sequence. -/
  | blockEntry
  /-- The comma of a flow collection. -/
  | flowEntry
  /-- What follows is a key. -/
  | key
  /-- What follows is a value. -/
  | value
  | alias (name : String)
  | anchor (name : String)
  | tag (handle suffix : String)
  /-- A scalar; `plain` if it was written without quotes and not as a block. -/
  | scalar (plain : Bool) (text : String)
deriving DecidableEq, Repr

end ConfigTree.Yaml
