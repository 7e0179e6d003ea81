import ConfigTree.Expression.Basic
import ConfigTree.Parameters.Error
import ConfigTree.Schema.Type
import ConfigTree.Tree.Excerpt

/-!
# What can be wrong with typed configuration

An error is a cause and the place in the tree to which it refers.  Where a tree was read in both of
its forms and neither works, there are two errors.

`Error.placedAt` gives a place to an error that has none yet; an error that has one keeps it.
-/

namespace ConfigTree.Schema

/-- Why a node has no value of its declared type. -/
inductive Cause where
  /-- The mapping does not say which member of the family it is. -/
  | missingModuleName (family : Family)
  | unknownModule (name : String) (home : Namespace)
  /-- The record of that name does not belong to what is declared. -/
  | notAVariant (name : String) (home : Namespace) (declared : DeclaredType)
  | missingField (field record : String)
  | expression (text : String) (fault : Expression.Fault)
  /-- A number that is no integer in range. -/
  | lossyConversion (x : Floating)
  | notABool (text : String)
  | elementNotMapping (index : Nat) (family : Family) (found : Kind)
  /-- The shape of the node is not that of the type. -/
  | unsupportedConversion (raw : Tree) (declared : DeclaredType)
  /-- The value is not of the type in which the record holds it. -/
  | typeMismatch (field expected found : String)
deriving DecidableEq, Repr

/-- Why configuration cannot be read. -/
inductive Error where
  /-- A cause and the dotted path of its place, which is empty at the root. -/
  | located (cause : Cause) (place : String)
  /-- Neither the fields of the record nor its name in front of them can be read. -/
  | neitherForm (raw : Tree) (declared : DeclaredType) (direct shorthand : Error)
  | parameters (cause : ParameterError)
deriving DecidableEq, Repr

/-- A place as messages add it; nothing for the root. -/
def placeSuffix (place : String) : String :=
  if place = "" then "" else " at '" ++ place ++ "'"

/-- The message of a cause at a place. -/
def Cause.message (place : String) : Cause → String
  | .missingModuleName family =>
    "Cannot find key 'module_name' when creating " ++ family.name ++ placeSuffix place
  | .unknownModule name home =>
    "Cannot find '" ++ name ++ "' (or '" ++ name ++ "Config') in namespace '" ++ home.name ++ "'" ++
      placeSuffix place
  | .notAVariant name home declared =>
    "'" ++ name ++ "' in namespace '" ++ home.name ++ "' is not a " ++ declared.label ++
      placeSuffix place
  | .missingField field record =>
    "Missing required field '" ++ field ++ "' of " ++ record ++ placeSuffix place
  | .expression text fault =>
    (if fault.isRefusal then "Unsafe expression " else "Cannot evaluate ") ++ Text.quoted text ++
      placeSuffix place ++ ": " ++ fault.reason
  | .lossyConversion x =>
    "Converting " ++ Floating.text Floating.plain double x ++ " to int would lose information" ++
      placeSuffix place
  | .notABool text => "Invalid bool value " ++ Text.quoted text ++ placeSuffix place
  | .elementNotMapping index family found =>
    "Element " ++ Text.showNat index ++ " of the " ++ family.name ++ " list is a " ++ found.label ++
      ", expected a mapping" ++ placeSuffix place
  | .unsupportedConversion raw declared =>
    "Cannot convert " ++ raw.kind.label ++ " " ++ raw.excerpt ++ " to " ++ declared.label ++
      placeSuffix place
  | .typeMismatch field expected found =>
    "Field '" ++ field ++ "' holds a " ++ found ++ ", expected " ++ expected ++ placeSuffix place

namespace Error

/-- The message of an error. -/
def message : Error → String
  | .located cause place => cause.message place
  | .neitherForm raw declared direct shorthand =>
    "Cannot convert " ++ raw.excerpt ++ " to " ++ declared.label ++
      "\n  as a mapping of fields: " ++ direct.message ++
      "\n  as a one-key shorthand: " ++ shorthand.message
  | .parameters cause => cause.message

/-- Gives the error a place if it can have one and has none. -/
def placedAt (error : Error) (place : String) : Error :=
  match error with
  | .located cause "" => .located cause place
  | other => other

/-- The place of an error that has one. -/
def place? : Error → Option String
  | .located _ place => some place
  | _ => none

@[simp] theorem placedAt_located (cause : Cause) (place new : String) :
    (located cause place).placedAt new = .located cause (if place = "" then new else place) := by
  unfold placedAt
  split <;> simp_all

theorem placedAt_of_placed {error : Error} (h : ∀ cause, error ≠ located cause "") (new : String) :
    error.placedAt new = error := by
  unfold placedAt
  split
  · exact absurd rfl (h _)
  · rfl

end Error

end ConfigTree.Schema
