import ConfigTree.Reference.Resolve
import ConfigTree.Storage.Error
import ConfigTree.Yaml.Error

/-!
# What can be wrong with parameters
-/

namespace ConfigTree

/-- Why parameters cannot be read, resolved or changed. -/
inductive ParameterError where
  /-- The text is no YAML document. -/
  | parse (cause : Yaml.Error)
  /-- The text is no template, or asks for something that is not there. -/
  | template
  | divergence (cause : Divergence)
  | pathNotFound (path : String)
  /-- Arguments that do not pair up. -/
  | oddArgumentCount (count : Nat)
  | file (cause : FileError)
deriving DecidableEq, Repr

/-- The message of an error. -/
def ParameterError.message : ParameterError → String
  | .parse cause => "Failed to parse YAML parameters: " ++ cause.message
  | .template => "Failed to render template: not a valid template"
  | .divergence cause =>
    "Substitution did not converge after " ++ Text.showNat cause.iterations ++
      " iterations (unresolved: " ++ ", ".intercalate cause.unresolved ++ ")"
  | .pathNotFound path => "Path not found: " ++ path
  | .oddArgumentCount count =>
    "Cannot create context from " ++ Text.showNat count ++ " arguments: expected key/value pairs"
  | .file cause => cause.message

end ConfigTree
