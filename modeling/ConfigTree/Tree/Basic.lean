import ConfigTree.Entries

/-!
# Configuration trees

A configuration is a `Tree`: text at the leaves, sequences, and mappings from text to trees that
keep the order in which their keys came.  There are no numbers and no booleans in a tree; what a
leaf means is decided only when it is converted to a declared type.

`Tree.same` is equality up to the order of the keys, which is how trees are compared.  `Tree.Valid`
says that no mapping holds a key twice; all trees built by this library are valid.
-/

namespace ConfigTree

/-- A tree of texts. -/
inductive Tree where
  /-- A leaf. -/
  | scalar (text : String)
  | sequence (items : List Tree)
  | mapping (entries : List (String × Tree))
deriving Inhabited, Repr

/-- The three shapes of a tree. -/
inductive Kind where
  | scalar
  | sequence
  | mapping
deriving DecidableEq, Repr

/-- The name of a shape in messages. -/
def Kind.label : Kind → String
  | .scalar => "scalar"
  | .sequence => "sequence"
  | .mapping => "mapping"

namespace Tree

mutual
/-- Equality of trees can be decided. -/
def decEq : (a b : Tree) → Decidable (a = b)
  | .scalar s, .scalar t =>
    if h : s = t then isTrue (by rw [h]) else isFalse (by simpa using h)
  | .sequence as, .sequence bs =>
    match decEqItems as bs with
    | isTrue h => isTrue (by rw [h])
    | isFalse h => isFalse (by simpa using h)
  | .mapping as, .mapping bs =>
    match decEqEntries as bs with
    | isTrue h => isTrue (by rw [h])
    | isFalse h => isFalse (by simpa using h)
  | .scalar _, .sequence _ => isFalse (by simp)
  | .scalar _, .mapping _ => isFalse (by simp)
  | .sequence _, .scalar _ => isFalse (by simp)
  | .sequence _, .mapping _ => isFalse (by simp)
  | .mapping _, .scalar _ => isFalse (by simp)
  | .mapping _, .sequence _ => isFalse (by simp)

/-- Equality of lists of trees can be decided. -/
def decEqItems : (as bs : List Tree) → Decidable (as = bs)
  | [], [] => isTrue rfl
  | [], _ :: _ => isFalse (by simp)
  | _ :: _, [] => isFalse (by simp)
  | a :: as, b :: bs =>
    match decEq a b, decEqItems as bs with
    | isTrue h, isTrue hs => isTrue (by rw [h, hs])
    | isFalse h, _ => isFalse (by simp [h])
    | _, isFalse hs => isFalse (by simp [hs])

/-- Equality of lists of entries can be decided. -/
def decEqEntries : (as bs : List (String × Tree)) → Decidable (as = bs)
  | [], [] => isTrue rfl
  | [], _ :: _ => isFalse (by simp)
  | _ :: _, [] => isFalse (by simp)
  | (k, a) :: as, (l, b) :: bs =>
    if hk : k = l then
      match decEq a b, decEqEntries as bs with
      | isTrue h, isTrue hs => isTrue (by rw [hk, h, hs])
      | isFalse h, _ => isFalse (by simp [h])
      | _, isFalse hs => isFalse (by simp [hs])
    else isFalse (by simp [hk])
end

instance : DecidableEq Tree := decEq

/-- The shape of a tree. -/
def kind : Tree → Kind
  | .scalar _ => .scalar
  | .sequence _ => .sequence
  | .mapping _ => .mapping

/-- The text of a leaf. -/
def text? : Tree → Option String
  | .scalar text => some text
  | _ => none

/-- The items of a sequence. -/
def items? : Tree → Option (List Tree)
  | .sequence items => some items
  | _ => none

/-- The entries of a mapping. -/
def entries? : Tree → Option (List (String × Tree))
  | .mapping entries => some entries
  | _ => none

/-- The value of a key, if the tree is a mapping that has the key. -/
def get? (tree : Tree) (key : String) : Option Tree :=
  tree.entries?.bind (Entries.get? · key)

/-- The mapping that arises by inserting pairs one after the other. -/
def ofPairs (pairs : List (String × Tree)) : Tree :=
  .mapping (Entries.ofList pairs)

mutual
/-- Are the trees equal up to the order of the keys in mappings? -/
def same : Tree → Tree → Bool
  | .scalar s, .scalar t => s == t
  | .sequence as, .sequence bs => sameItems as bs
  | .mapping as, .mapping bs => as.length == bs.length && entriesWithin as bs
  | _, _ => false

/-- Are the lists equal, item by item? -/
def sameItems : List Tree → List Tree → Bool
  | [], [] => true
  | a :: as, b :: bs => same a b && sameItems as bs
  | _, _ => false

/-- Has each entry of the first list a counterpart in the second? -/
def entriesWithin : List (String × Tree) → List (String × Tree) → Bool
  | [], _ => true
  | (k, a) :: as, bs =>
    (match Entries.get? bs k with
      | some b => same a b
      | none => false) && entriesWithin as bs
end

mutual
/-- No mapping in the tree holds a key twice. -/
def Valid : Tree → Prop
  | .scalar _ => True
  | .sequence items => ValidItems items
  | .mapping entries => Entries.NodupKeys entries ∧ ValidEntries entries

/-- All the trees are valid. -/
def ValidItems : List Tree → Prop
  | [] => True
  | t :: rest => Valid t ∧ ValidItems rest

/-- All the values are valid. -/
def ValidEntries : List (String × Tree) → Prop
  | [] => True
  | (_, t) :: rest => Valid t ∧ ValidEntries rest
end

@[simp] theorem get?_scalar (text key : String) : (Tree.scalar text).get? key = none := rfl

@[simp] theorem get?_sequence (items : List Tree) (key : String) :
    (Tree.sequence items).get? key = none := rfl

@[simp] theorem get?_mapping (entries : List (String × Tree)) (key : String) :
    (Tree.mapping entries).get? key = Entries.get? entries key := rfl

example : (ofPairs [("b", .scalar "1"), ("a", .sequence []), ("b", .scalar "2")]) =
    .mapping [("b", .scalar "2"), ("a", .sequence [])] := by decide
example : same (.mapping [("b", .scalar "2"), ("a", .sequence [])])
    (.mapping [("a", .sequence []), ("b", .scalar "2")]) = true := by decide

end Tree

end ConfigTree
