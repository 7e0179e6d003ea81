import ConfigTree.Entries
import ConfigTree.Schema.Error

/-!
# Registered records

The registry says which record a name stands for in a namespace, and to which families the record
belongs there.  A name stands for the record that is registered under it, and otherwise for the one
registered under the name with `Config` behind it.

Registering a record again replaces what was known of its name: for a family its earlier membership,
and in every case the record of the entry.

A member of a family is the record itself, seen as a value of the family.  A registration can choose
how a record is turned into such a value; this choice is not part of an entry, and every record is
turned into a member by keeping its fields.
-/

namespace ConfigTree

/-- What is registered under one name. -/
structure RegistryEntry where
  name : String
  record : RecordType
  /-- The families in which the name can be used, each with the record that is made then. -/
  members : Entries Family RecordType
deriving DecidableEq, Repr

namespace RegistryEntry

/-- Is the name a member of the family? -/
def isVariantOf (entry : RegistryEntry) (family : Family) : Bool :=
  Entries.contains entry.members family

/-- The record that is made for a member of the family. -/
def made? (entry : RegistryEntry) (family : Family) : Option RecordType :=
  Entries.get? entry.members family

/-- The names of the families, in order. -/
def families (entry : RegistryEntry) : List String :=
  entry.members.map fun member => member.1.name

/-- The entry, written out for inspection. -/
def inspect (entry : RegistryEntry) : String :=
  "RegistryEntry \x7b name: " ++ Text.quoted entry.name ++ ", families: [" ++
    ", ".intercalate (entry.families.map Text.quoted) ++ "] \x7d"

end RegistryEntry

/-- The entries by namespace and name. -/
abbrev Registry := Entries (Namespace × String) RegistryEntry

namespace Registry

/-- What may be left out at the end of a name. -/
def optionalSuffix : String := "Config"

/-- The entry of a record in a namespace, or a new one without families. -/
def entryOf (registry : Registry) (home : Namespace) (type : RecordType) : RegistryEntry :=
  (Entries.get? registry (home, type.name)).getD ⟨type.name, type, []⟩

/-- Registers a record, so that its name can be written in front of its fields. -/
def registerRecord (registry : Registry) (home : Namespace) (type : RecordType) : Registry :=
  Entries.insert registry (home, type.name) { registry.entryOf home type with record := type }

/-- Registers a record as a member of a family. -/
def registerVariant (registry : Registry) (family : Family) (type : RecordType) : Registry :=
  let entry := registry.entryOf family.home type
  Entries.insert registry (family.home, type.name)
    { entry with
      record := type
      members := Entries.erase entry.members family ++ [(family, type)] }

/-- What a name stands for. -/
def lookup? (registry : Registry) (home : Namespace) (name : String) : Option RegistryEntry :=
  (Entries.get? registry (home, name)).or (Entries.get? registry (home, name ++ optionalSuffix))

/-- What a name stands for; it is an error if it stands for nothing. -/
def resolve (registry : Registry) (home : Namespace) (name : String) :
    Except Schema.Cause RegistryEntry :=
  match registry.lookup? home name with
  | some entry => .ok entry
  | none => .error (.unknownModule name home)

/-- Does the name stand for anything? -/
def contains (registry : Registry) (home : Namespace) (name : String) : Bool :=
  (registry.lookup? home name).isSome

/-- The registered names of a namespace, in order. -/
def names (registry : Registry) (home : Namespace) : List String :=
  let here := (Entries.keys registry).filter (·.1 == home)
  (here.map Prod.snd).mergeSort fun a b => a ≤ b

end Registry

end ConfigTree
