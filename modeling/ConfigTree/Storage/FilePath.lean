/-!
# Paths of files

The path of a parameter file, written with forward slashes of which no two stand side by side.
Building one from a text that has this form already changes nothing (`ofString_text`).
-/

namespace ConfigTree

/-- The path of a file. -/
structure FilePath where
  text : String
deriving DecidableEq, Repr

namespace FilePath

/-- Turns backslashes into slashes and leaves one slash of several in a row.  `afterSlash` tells
whether a slash comes right before. -/
def collapse (afterSlash : Bool) : List Char → List Char
  | [] => []
  | c :: rest =>
    if c = '/' || c = '\\' then
      if afterSlash then collapse true rest else '/' :: collapse true rest
    else c :: collapse false rest

/-- The path that a text means. -/
def ofString (text : String) : FilePath :=
  ⟨String.ofList (collapse false text.toList)⟩

/-- Splits a text at its slashes. -/
def splitSlash : List Char → List (List Char)
  | [] => [[]]
  | '/' :: rest => [] :: splitSlash rest
  | c :: rest => match splitSlash rest with
    | [] => [[c]]
    | first :: more => (c :: first) :: more

/-- Does the path begin at the root? -/
def isAbsolute (path : String) : Bool := path.toList.head? == some '/'

/-- The name of the file, which is what follows the last slash that is not at the end. -/
def fileName? (path : FilePath) : Option String :=
  let cs := (path.text.toList.reverse.dropWhile (· == '/')).reverse
  match (splitSlash cs).getLast? with
  | some [] => none
  | some name => some (String.ofList name)
  | none => none

/-- The extension of a name: what follows its last point, unless that begins the name. -/
def extensionOf? (name : String) : Option String :=
  let reversed := name.toList.reverse
  let ending := reversed.takeWhile (· != '.')
  match reversed.drop ending.length with
  | [] => none
  | [_] => none
  | _ :: _ :: _ => some (String.ofList ending.reverse)

/-- The extension of the file. -/
def extension? (path : FilePath) : Option String :=
  path.fileName?.bind extensionOf?

theorem collapse_collapse (afterSlash : Bool) (cs : List Char) :
    collapse afterSlash (collapse afterSlash cs) = collapse afterSlash cs := by
  induction cs generalizing afterSlash with
  | nil => rfl
  | cons c rest ih =>
    by_cases h : c = '/' ∨ c = '\\'
    · cases afterSlash
      · simp [collapse, h, ih]
      · simp [collapse, h, ih]
    · have h1 : c ≠ '/' := fun e => h (.inl e)
      have h2 : c ≠ '\\' := fun e => h (.inr e)
      simp [collapse, h1, h2, ih]

/-- **Paths have one form.** -/
theorem ofString_text (text : String) : ofString (ofString text).text = ofString text := by
  simp [ofString, collapse_collapse]

example : ofString "a\\/b//c" = ⟨"a/b/c"⟩ := by decide
example : (ofString "dir.d/").extension? = some "d" := by decide +kernel
example : (ofString ".params").extension? = none := by decide +kernel

end FilePath

end ConfigTree
