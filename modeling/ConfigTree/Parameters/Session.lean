import ConfigTree.Parameters.Basic

/-!
# Parameters that are kept and changed

A `Session` is a computation on parameters that someone keeps.  What it has stored when it fails
stays stored, so it matters when it stores: `Session.assign` makes both new trees, the written one
and the resolved one, before it stores either.

`Session.attempt` makes assignments one after the other, whether or not those before have failed.
-/

namespace ConfigTree

/-- A computation on kept parameters; it can fail at any time, and does not undo what it has
stored. -/
abbrev Session := ExceptT ParameterError (StateM Parameters)

/-- A value for a place, which is given by its segments or by their dotted form. -/
inductive Assignment where
  | segments (path : Path) (value : Tree)
  | dotted (path : String) (value : Tree)
deriving Repr

namespace Assignment

/-- The place. -/
def path : Assignment → Path
  | .segments path _ => path
  | .dotted text _ => .parse text

/-- The value. -/
def value : Assignment → Tree
  | .segments _ value => value
  | .dotted _ value => value

/-- Writes the value into a tree; `none` if the path leads nowhere. -/
def write? (assignment : Assignment) (tree : Tree) : Option Tree :=
  tree.set? assignment.path assignment.value

end Assignment

namespace Session

/-- Writes a value at a path of the written tree and resolves its references again. -/
def assign (path : Path) (value : Tree) : Session Unit := do
  let old ← get
  match old.source.set? path value with
  | none => throw (.pathNotFound path.dotted)
  | some source => match source.resolve old.cap with
    | .error cause => throw (.divergence cause)
    | .ok data => do
      modify fun parameters => { parameters with source := source }
      modify fun parameters => { parameters with data := data }

/-- Makes an assignment. -/
def make (assignment : Assignment) : Session Unit :=
  assign assignment.path assignment.value

/-- Makes assignments one after the other, and answers for each whether it failed. -/
def attempt : List Assignment → StateM Parameters (List (Except ParameterError Unit))
  | [] => pure []
  | assignment :: rest => do
    let outcome ← (make assignment).run
    return outcome :: (← attempt rest)

end Session

end ConfigTree
