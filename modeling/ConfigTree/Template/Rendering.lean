import ConfigTree.Template.Parser
import ConfigTree.Text.Digits

/-!
# Rendering a template

Rendering takes a template and a context and gives a text, or nothing where the template asks for
something that does not exist.  A name without a value renders as nothing, unless rendering is
strict: then it is an error.

Two families of helpers are known.  A block helper decides which branch of its block is rendered and
in which `Scope`; a value helper (`helperValue?`) computes a value from its arguments.
-/

namespace ConfigTree.Template

/-- What paths refer to inside a block. -/
structure Scope where
  this : Datum
  /-- What the block provides under names with an at sign. -/
  locals : List (String × Datum)
  /-- What the block provides under the names it was given. -/
  binds : List (String × Datum)

/-- The scope of a template outside all blocks. -/
def Scope.root (context : Context) : Scope := ⟨.context context, [], []⟩

/-! ## Values -/

namespace Datum

/-- The text that a value is rendered as. -/
def render : Datum → String
  | .missing => ""
  | .null => ""
  | .bool b => if b then "true" else "false"
  | .number digits => digits
  | .text content => content
  | .context _ => "[object]"

/-- Does a value count as true? -/
def isTruthy : Datum → Bool
  | .missing => false
  | .null => false
  | .bool b => b
  | .number digits => digits.toList.any fun c => c.isDigit && c != '0'
  | .text content => content != ""
  | .context entries => !entries.isEmpty

/-- What a path leads to from a value. -/
def navigate : Datum → List String → Datum
  | value, [] => value
  | .context entries, name :: rest => match Entries.get? entries name with
    | some content => navigate (.text content) rest
    | none => .missing
  | _, _ :: _ => .missing

/-- The order of two texts; other values have none. -/
def order? : Datum → Datum → Option Ordering
  | .text a, .text b => some (compare a b)
  | _, _ => none

/-- How many parts a value has. -/
def size : Datum → Nat
  | .text content => content.utf8ByteSize
  | .context entries => entries.length
  | _ => 0

end Datum

/-- What a path leads to. -/
def ValuePath.value (path : ValuePath) (context : Context) (scopes : List Scope) : Datum :=
  let scope := (scopes[path.up]?).getD ((scopes.head?).getD (.root context))
  if path.isLocal then
    match path.names with
    | [] => .missing
    | name :: rest => ((scope.locals.lookup name).getD .missing).navigate rest
  else if path.fromRoot then (Datum.context context).navigate path.names
  else
    let bound := if path.up = 0 then
        path.names.head?.bind fun name => scopes.findSome? fun scope => scope.binds.lookup name
      else none
    match bound with
    | some value => value.navigate (path.names.drop 1)
    | none => scope.this.navigate path.names

/-! ## Helpers -/

/-- The helpers that compute a value. -/
def valueHelpers : List String :=
  ["lookup", "eq", "ne", "gt", "gte", "lt", "lte", "and", "or", "not", "len"]

/-- The helpers that render nothing by themselves. -/
def silentHelpers : List String := ["log", "raw"]

/-- The helpers that choose what is rendered. -/
def blockHelpers : List String := ["if", "unless", "with", "each"]

/-- The value that a helper computes; `none` if there is no such helper or an argument is
missing. -/
def helperValue? (strict : Bool) (helper : String) (arguments : List Datum) : Option Datum :=
  match helper, arguments with
  | "lookup", collection :: .text name :: _ => match collection.navigate [name] with
    | .missing => if strict then none else some .null
    | value => some value
  | "lookup", _ :: _ :: _ => if strict then none else some .null
  | "not", a :: _ => some (.bool !a.isTruthy)
  | "len", a :: _ => some (.number (Text.showNat a.size))
  | "eq", a :: b :: _ => some (.bool (a == b))
  | "ne", a :: b :: _ => some (.bool (a != b))
  | "and", a :: b :: _ => some (.bool (a.isTruthy && b.isTruthy))
  | "or", a :: b :: _ => some (.bool (a.isTruthy || b.isTruthy))
  | "gt", a :: b :: _ => some (.bool (a.order? b == some .gt))
  | "gte", a :: b :: _ => some (.bool ((a.order? b).any (· != .lt)))
  | "lt", a :: b :: _ => some (.bool (a.order? b == some .lt))
  | "lte", a :: b :: _ => some (.bool ((a.order? b).any (· != .gt)))
  | _, _ => none

mutual
/-- The value of a term. -/
def Term.value? (strict : Bool) (context : Context) (scopes : List Scope) : Term → Option Datum
  | .path path => some (path.value context scopes)
  | .literal value => some value
  | .call helper arguments => do
    helperValue? strict helper (← argumentValues? strict context scopes arguments)

/-- The values of several terms. -/
def argumentValues? (strict : Bool) (context : Context) (scopes : List Scope) :
    List Term → Option (List Datum)
  | [] => some []
  | term :: rest => do
    let value ← term.value? strict context scopes
    return value :: (← argumentValues? strict context scopes rest)
end

/-- The scopes in which the body of a block is rendered, one after the other; `none` if the block
declines. -/
def bodyScopes (head : Head) (arguments : List Datum) (declinable : Bool) (scopes : List Scope) :
    Option (List (List Scope)) :=
  match head.helper, arguments with
  | "if", a :: _ => if a.isTruthy then some [scopes] else none
  | "unless", a :: _ => if a.isTruthy then none else some [scopes]
  | "with", a :: _ =>
    if a.isTruthy then some [⟨a, [], head.binds.zip [a]⟩ :: scopes] else none
  | "each", .context entries :: _ =>
    if entries.isEmpty && declinable then none
    else
      let sorted := entries.mergeSort fun a b => a.1 ≤ b.1
      some (sorted.zipIdx.map fun ((name, content), i) =>
        ⟨.text content,
          [("key", .text name), ("index", .number (Text.showNat i)), ("first", .bool (i == 0)),
            ("last", .bool (i + 1 == sorted.length))],
          head.binds.zip [.text content, .text name]⟩ :: scopes)
  | ">", _ => some [scopes]
  | "raw", _ => some [scopes]
  | _, _ => none

/-- Is a block that declines, and has nothing to render instead, an error in strict rendering? -/
def demandsBranch (helper : String) : Bool :=
  helper == "with" || helper == "each"

/-- Can a block have this helper with so many arguments? -/
def acceptsBlock (helper : String) (arguments : Nat) : Bool :=
  (blockHelpers.contains helper && 0 < arguments) || silentHelpers.contains helper || helper == ">"

/-- Renders a value, or a helper without a block. -/
def renderTerm (strict : Bool) (context : Context) (scopes : List Scope) (term : Term) :
    Option String :=
  match term with
  | .call helper arguments =>
    if silentHelpers.contains helper then some ""
    else if blockHelpers.contains helper then do
      let arguments ← argumentValues? strict context scopes arguments
      if helper == "with" && strict && !(arguments.head?.any Datum.isTruthy) then none
      return ""
    else (term.value? strict context scopes).map Datum.render
  | .path path =>
    let alone := if path.isLocal || path.fromRoot || path.up != 0 then none else
      match path.names with
      | [name] => some name
      | _ => none
    if alone.any silentHelpers.contains then some ""
    else if alone.any fun name => blockHelpers.contains name || valueHelpers.contains name then none
    else match path.value context scopes with
      | .missing => if strict then none else some ""
      | value => some value.render
  | .literal value => some value.render

mutual
/-- Renders a part. -/
def renderPart (strict : Bool) (context : Context) (scopes : List Scope) : Part → Option String
  | .text content => some content
  | .value term => renderTerm strict context scopes term
  | .partialTemplate => none
  | .block head body otherwise => do
    let arguments ← argumentValues? strict context scopes head.arguments
    if !acceptsBlock head.helper arguments.length then none
    if head.helper == "log" then return ""
    match bodyScopes head arguments otherwise.isSome scopes with
    | some inner =>
      let pieces ← inner.mapM fun scopes => renderParts strict context scopes body
      return String.join pieces
    | none =>
      match otherwise with
      | some parts => renderParts strict context scopes parts
      | none => if strict && demandsBranch head.helper then none else return ""

/-- Renders parts one after the other. -/
def renderParts (strict : Bool) (context : Context) (scopes : List Scope) :
    List Part → Option String
  | [] => some ""
  | part :: rest => do
    let first ← renderPart strict context scopes part
    return first ++ (← renderParts strict context scopes rest)
end

/-- What is done with the tags of a template. -/
inductive Renderer where
  /-- Nothing: the text stays as it is. -/
  | plain
  /-- Names without a value render as nothing. -/
  | lenient
  /-- Names without a value are errors. -/
  | strict
deriving DecidableEq, Repr

/-- Renders a template text. -/
def Renderer.render? (renderer : Renderer) (context : Context) (text : String) : Option String :=
  let tagged := fun strict => do
    renderParts strict context [.root context] (← parse? text)
  match renderer with
  | .plain => some text
  | .lenient => tagged false
  | .strict => tagged true

end ConfigTree.Template
