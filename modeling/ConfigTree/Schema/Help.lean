import ConfigTree.Schema.Catalog
import ConfigTree.Tree.Leaves

/-!
# Help for the fields of a tree

The help texts of the declared fields that a tree has, under their flat names.  The fields of a
member of a family are those of the record that its `module_name` stands for; a member that stands
for nothing has no help.
-/

namespace ConfigTree

/-- The help below a node, for each type and flat name. -/
abbrev HelpReading := DeclaredType → String → List (String × String)

/-- The help of the declared fields that a mapping of the given name has. -/
def Schema.helpOf (entries : Entries String HelpReading) (name : String) :
    List FieldSpec → List (String × String)
  | [] => []
  | spec :: rest =>
    (match Entries.get? entries spec.name with
      | some reading =>
        let child := childName name spec.name
        (spec.help.map fun text => (child, text)).toList ++ reading spec.declared child
      | none => []) ++ helpOf entries name rest

namespace Catalog

/-- The record that a member of a family is, as far as the mapping says. -/
def namedRecord? (catalog : Catalog) (family : Family) (entries : Entries String Tree) :
    Option RecordType :=
  ((Entries.get? entries moduleNameKey).bind Tree.text?).bind fun name =>
    (catalog.registry.lookup? family.home name).map RegistryEntry.record

mutual
/-- The help below a node, in the order of the schemas. -/
def helpBelow (catalog : Catalog) : Tree → HelpReading
  | .sequence items, .list element, name => helpOfItems catalog element name 0 items
  | .mapping entries, .record type, name =>
    Schema.helpOf (helpReadings catalog entries) name (catalog.schema type).fields
  | .mapping entries, .variant family, name =>
    match catalog.namedRecord? family entries with
    | some type => Schema.helpOf (helpReadings catalog entries) name (catalog.schema type).fields
    | none => []
  | _, _, _ => []

/-- The help below the items of a sequence, counted from `index` on. -/
def helpOfItems (catalog : Catalog) (element : DeclaredType) (name : String) :
    Nat → List Tree → List (String × String)
  | _, [] => []
  | index, item :: rest =>
    helpBelow catalog item element (childName name (Text.showNat index)) ++
      helpOfItems catalog element name (index + 1) rest

/-- The help below the entries of a mapping. -/
def helpReadings (catalog : Catalog) : List (String × Tree) → Entries String HelpReading
  | [] => []
  | (key, node) :: rest =>
    (key, fun declared name => helpBelow catalog node declared name) :: helpReadings catalog rest
end

/-- The help for a tree by flat name. -/
def help (catalog : Catalog) (tree : Tree) (declared : DeclaredType) : Table :=
  Entries.ofList (catalog.helpBelow tree declared "")

end Catalog

end ConfigTree
