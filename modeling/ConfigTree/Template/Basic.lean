import ConfigTree.Entries

/-!
# Templates

A template is text with tags in double braces.  A tag puts in a value (`Part.value`) or is one end
of a block (`Part.block`), which a named helper renders, not at all, once or several times.

What a tag stands for is a `Term`: a path into the context, a literal, or a call of a helper.
-/

namespace ConfigTree.Template

/-- The names that a template can use, and their texts. -/
abbrev Context := Entries String String

/-- A value that occurs while a template is rendered. -/
inductive Datum where
  /-- What a path means that leads nowhere. -/
  | missing
  | null
  | bool (value : Bool)
  /-- A number, as it is written. -/
  | number (digits : String)
  | text (content : String)
  /-- The whole context. -/
  | context (entries : Context)
deriving DecidableEq, Repr

/-- A path to a value. -/
structure ValuePath where
  /-- Does it start at the whole context? -/
  fromRoot : Bool
  /-- Does it name something that the innermost block provides? -/
  isLocal : Bool
  /-- How many blocks it leaves. -/
  up : Nat
  names : List String
deriving DecidableEq, Repr

/-- What a tag or an argument stands for. -/
inductive Term where
  | path (path : ValuePath)
  | literal (value : Datum)
  | call (helper : String) (arguments : List Term)
deriving Inhabited, Repr

/-- The head of a block: its helper, the arguments, and the names it gives to what it provides. -/
structure Head where
  helper : String
  arguments : List Term
  binds : List String
deriving Inhabited, Repr

/-- A part of a template. -/
inductive Part where
  | text (content : String)
  | value (term : Term)
  /-- A block, with what is rendered in its place if its helper declines. -/
  | block (head : Head) (body : List Part) (otherwise : Option (List Part))
  /-- A reference to another template, of which there are none. -/
  | partialTemplate
deriving Inhabited, Repr

end ConfigTree.Template
