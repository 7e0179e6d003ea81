import ConfigTree.Storage.Error
import ConfigTree.Storage.FilePath

/-!
# Formats of files

The extension of a file tells its format, in whatever case; a file without extension is YAML.  JSON
is read as the YAML it is.
-/

namespace ConfigTree

/-- The formats of parameter files. -/
inductive FileFormat where
  | yaml
  | json
deriving DecidableEq, Repr

namespace FileFormat

/-- The format of an extension. -/
def ofExtension (extension : String) : Except FileError FileFormat :=
  let lower := String.ofList (extension.toList.map Char.toLower)
  if lower = "yaml" || lower = "yml" then .ok .yaml
  else if lower = "json" then .ok .json
  else .error (.unsupportedFormat extension)

/-- The usual extension of a format. -/
def extension : FileFormat → String
  | .yaml => "yaml"
  | .json => "json"

/-- The name of a format. -/
def label : FileFormat → String
  | .yaml => "YAML"
  | .json => "JSON"

end FileFormat

/-- The format of a file. -/
def FilePath.format (path : FilePath) : Except FileError FileFormat :=
  match path.extension? with
  | some extension => FileFormat.ofExtension extension
  | none => .ok .yaml

end ConfigTree
