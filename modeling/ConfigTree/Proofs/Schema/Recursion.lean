import ConfigTree.Proofs.Schema.Located
import ConfigTree.Proofs.Schema.Root
import ConfigTree.Proofs.Tree.Descent
import ConfigTree.Schema.Help

/-! # The recursion of materialization

Records may declare fields of their own type, directly or through one another, so that a declared
type does not become smaller on the way down; what becomes smaller is the tree.  Here conversion,
materialization and the collection of help are written as steps, with the recursive calls left open.
Each of them is a `Tree.Recursion`: it calls itself only strictly below the node at hand.  The
members of a list are read together with the list, which is why a call may be two levels further
down; the keys of a map are converted as leaves are.

**Whatever the schemas are, no recursion is deeper than its tree** (`recursion_bounded`).
-/
namespace ConfigTree

namespace Catalog

open Schema

/-! ### The steps -/

section Steps

variable (catalog : Catalog) (coercion : IntegerCoercion)

/-- What a node is converted to, its items, keys and values being converted by `self`. -/
def convertStep (self : Tree → Reading) (raw : Tree) (declared : DeclaredType) (path : Path) :
    Except Error Value :=
  match declared, raw with
  | .list element, .sequence items =>
    if element.isPrimitive then
      (convertItems (self · element) path 0 items).map .list
    else .error (unsupported raw declared path)
  | .map key value, .mapping entries =>
    if key.isScalar && value.isPrimitive then
      (convertEntries (self · key) (self · value) path entries).map .map
    else .error (unsupported raw declared path)
  | _, .scalar text =>
    match readScalar? coercion text declared with
    | some (.ok value) => .ok value
    | some (.error cause) => .error (.located cause path.dotted)
    | none => .error (unsupported raw declared path)
  | _, _ => .error (unsupported raw declared path)

/-- The members of a family in a sequence, the values in them being materialized by `self`. -/
def membersStep (self : Tree → Reading) (family : Family) (path : Path) :
    Nat → List Tree → Except Error (List Value)
  | _, [] => .ok []
  | index, .mapping entries :: rest => do
    let value ← catalog.makeVariant family entries (Entries.mapValues self entries)
      (path ++ [.index index])
    return value :: (← membersStep self family path (index + 1) rest)
  | index, item :: _ =>
    let place := Path.dotted (path ++ [.index index])
    .error (.located (.elementNotMapping index family item.kind) place)

/-- The value of a node, the nodes below it being materialized by `self`. -/
def materializeStep (self : Tree → Reading) (raw : Tree) (declared : DeclaredType) (path : Path) :
    Except Error Value :=
  if declared.isPrimitive then convertStep coercion self raw declared path
  else match declared, raw with
    | .variant family, .mapping entries =>
      if family.kind = .single then
        catalog.makeVariant family entries (Entries.mapValues self entries) path
      else .error (unsupported raw declared path)
    | .list element, .sequence items =>
      match (DeclaredType.list element).memberList? with
      | some family => (catalog.membersStep self family path 0 items).map .list
      | none => .error (unsupported raw declared path)
    | .record type, .mapping entries =>
      catalog.makeRecord type (Entries.mapValues self entries) path
    | _, _ => .error (unsupported raw declared path)

/-- A record made from its name and the mapping behind it, whose values are materialized by
`self`. -/
def namedStep (self : Tree → Reading) (declared : DeclaredType) (home : Namespace) (name : String)
    (inner : List (String × Tree)) : Except Error Value :=
  match catalog.registry.resolve home name with
  | .error cause => .error (.located cause "")
  | .ok entry =>
    match declared with
    | .variant family => catalog.makeMember entry family (Entries.mapValues self inner) [.key name]
    | .record type =>
      if entry.record = type then
        catalog.makeRecord type (Entries.mapValues self inner) [.key name]
      else .error (.located (.notAVariant entry.name home declared) "")
    | _ => .error (.located (.notAVariant entry.name home declared) "")

/-- The value of a whole document, the nodes below it being materialized by `self`. -/
def rootStep (self : Tree → Reading) (raw : Tree) (declared : DeclaredType) : Except Error Value :=
  match catalog.materializeStep coercion self raw declared [] with
  | .ok value => .ok value
  | .error direct => match raw, catalog.shorthandHome? declared with
    | .mapping [(name, .mapping inner)], some home =>
      match catalog.namedStep self declared home name inner with
      | .ok value => .ok value
      | .error shorthand => .error (.neitherForm raw declared direct shorthand)
    | _, _ => .error direct

/-- The help below the items of a sequence, that below each of them being collected by `self`. -/
def helpItemsStep (self : Tree → HelpReading) (element : DeclaredType) (name : String) :
    Nat → List Tree → List (String × String)
  | _, [] => []
  | index, item :: rest =>
    self item element (childName name (Text.showNat index)) ++
      helpItemsStep self element name (index + 1) rest

/-- The help below a node, that below its children being collected by `self`. -/
def helpStep (self : Tree → HelpReading) (raw : Tree) (declared : DeclaredType) (name : String) :
    List (String × String) :=
  match declared, raw with
  | .record type, .mapping entries =>
    helpOf (Entries.mapValues self entries) name (catalog.schema type).fields
  | .variant family, .mapping entries =>
    match catalog.namedRecord? family entries with
    | some type => helpOf (Entries.mapValues self entries) name (catalog.schema type).fields
    | none => []
  | .list element, .sequence items => helpItemsStep self element name 0 items
  | _, _ => []

end Steps

variable {catalog : Catalog} {coercion : IntegerCoercion}

/-! ### The steps unfold the functions -/

theorem convertStep_convert :
    convertStep coercion (fun raw declared => convert coercion declared raw) =
      fun raw declared => convert coercion declared raw := by
  funext raw declared path
  cases declared <;> cases raw <;> rfl

theorem membersStep_materializeAt (family : Family) (path : Path) (index : Nat)
    (items : List Tree) :
    catalog.membersStep (catalog.materializeAt coercion) family path index items =
      catalog.members coercion family path index items := by
  induction items generalizing index with
  | nil => rfl
  | cons item rest ih =>
    cases item with
    | mapping entries => simp only [membersStep, members, readings_eq_mapValues, ih]
    | _ => rfl

/-- Where a primitive type is declared, materialization calls itself as conversion does. -/
theorem convertStep_materializeAt {declared : DeclaredType} (hp : declared.isPrimitive = true)
    (raw : Tree) (path : Path) :
    convertStep coercion (catalog.materializeAt coercion) raw declared path =
      convert coercion declared raw path := by
  have hself : ∀ {part : DeclaredType}, part.isPrimitive = true →
      (catalog.materializeAt coercion · part) = convert coercion part :=
    fun hpart => funext₂ fun node place => materializeAt_of_isPrimitive hpart node place
  cases declared with
  | list element =>
    have helement : element.isPrimitive = true := hp
    cases raw with
    | sequence items => simp only [convertStep, convert, hself helement]
    | _ => rfl
  | map key value =>
    obtain ⟨hkey, hvalue⟩ := Bool.and_eq_true_iff.mp hp
    cases raw with
    | mapping entries =>
      simp only [convertStep, convert, hself (DeclaredType.isPrimitive_of_isScalar hkey),
        hself hvalue]
    | _ => rfl
  | _ => cases raw <;> rfl

theorem materializeStep_materializeAt :
    catalog.materializeStep coercion (catalog.materializeAt coercion) =
      catalog.materializeAt coercion := by
  funext raw declared path
  unfold materializeStep
  by_cases hp : declared.isPrimitive = true
  · rw [if_pos hp, convertStep_materializeAt hp, materializeAt_of_isPrimitive hp]
  · rw [if_neg hp]
    cases raw with
    | scalar text => cases declared <;> first | rfl | exact absurd rfl hp
    | sequence items =>
      cases declared with
      | list element =>
        cases hlist : (DeclaredType.list element).memberList? with
        | some family => simp only [materializeAt, hlist, membersStep_materializeAt]
        | none =>
          have helement : element.isPrimitive = false := Bool.eq_false_iff.mpr hp
          simp only [materializeAt, convert, hlist, helement, Bool.false_eq_true, if_false]
      | _ => rfl
    | mapping entries =>
      cases declared with
      | record type => simp only [materializeAt, makeRecord, readings_eq_mapValues]
      | variant family => simp only [materializeAt, readings_eq_mapValues]
      | map key value =>
        have htakes : (DeclaredType.map key value).takes .mapping = false :=
          Bool.eq_false_iff.mpr hp
        exact (convert_of_not_takes htakes path).symm
      | _ => rfl

theorem namedStep_materializeAt (declared : DeclaredType) (home : Namespace) (name : String)
    (inner : List (String × Tree)) :
    catalog.namedStep (catalog.materializeAt coercion) declared home name inner =
      catalog.materializeNamed coercion declared home name inner := by
  unfold namedStep materializeNamed
  cases catalog.registry.resolve home name with
  | error cause => rfl
  | ok entry => cases declared <;> simp only [readings_eq_mapValues]

theorem rootStep_materializeAt :
    catalog.rootStep coercion (catalog.materializeAt coercion) =
      fun raw declared => catalog.materializeRoot coercion raw declared := by
  funext raw declared
  simp only [rootStep, materializeStep_materializeAt, namedStep_materializeAt,
    materializeRoot_eq_orNamed, materialize]
  cases catalog.materializeAt coercion raw declared [] <;> rfl

theorem helpItemsStep_helpBelow (element : DeclaredType) (name : String) (index : Nat)
    (items : List Tree) :
    helpItemsStep catalog.helpBelow element name index items =
      catalog.helpOfItems element name index items := by
  induction items generalizing index with
  | nil => rfl
  | cons item rest ih => rw [helpItemsStep, helpOfItems, ih]

theorem helpReadings_eq_mapValues (entries : List (String × Tree)) :
    catalog.helpReadings entries = Entries.mapValues catalog.helpBelow entries := by
  induction entries with
  | nil => rfl
  | cons entry rest ih =>
    obtain ⟨key, node⟩ := entry
    rw [helpReadings, ih]
    rfl

theorem helpStep_helpBelow : catalog.helpStep catalog.helpBelow = catalog.helpBelow := by
  funext raw declared name
  cases declared with
  | list element =>
    cases raw with
    | sequence items => exact helpItemsStep_helpBelow element name 0 items
    | _ => rfl
  | record type =>
    cases raw with
    | mapping entries => rw [helpStep, helpBelow, helpReadings_eq_mapValues]
    | _ => rfl
  | variant family =>
    cases raw with
    | mapping entries =>
      cases hrecord : catalog.namedRecord? family entries <;>
        simp only [helpStep, helpBelow, hrecord, helpReadings_eq_mapValues]
    | _ => rfl
  | _ => cases raw <;> rfl

/-! ### The calls go down -/

section Descent

variable {β : Type}

theorem below_item {item : Tree} {items : List Tree} (h : item ∈ items) :
    Tree.Below item (.sequence items) :=
  .single (.item h)

theorem mapValues_congr {self other : Tree → β} {entries : List (String × Tree)}
    (h : ∀ node, Tree.Below node (.mapping entries) → self node = other node) :
    Entries.mapValues self entries = Entries.mapValues other entries :=
  List.map_congr_left fun entry hentry => by rw [h entry.2 (.single (.value hentry))]

theorem convertItems_congr {item item' : Conversion} {path : Path} {index : Nat}
    {items : List Tree} (h : ∀ node ∈ items, item node = item' node) :
    convertItems item path index items = convertItems item' path index items := by
  induction items generalizing index with
  | nil => rfl
  | cons first rest ih =>
    obtain ⟨hfirst, hrest⟩ := List.forall_mem_cons.mp h
    simp only [convertItems, hfirst, ih hrest]

theorem convertEntries_congr {key key' value value' : Conversion} {path : Path}
    {entries : List (String × Tree)}
    (hkey : ∀ entry ∈ entries, key (.scalar entry.1) = key' (.scalar entry.1))
    (hvalue : ∀ entry ∈ entries, value entry.2 = value' entry.2) :
    convertEntries key value path entries = convertEntries key' value' path entries := by
  induction entries with
  | nil => rfl
  | cons first rest ih =>
    obtain ⟨hk, hkey⟩ := List.forall_mem_cons.mp hkey
    obtain ⟨hv, hvalue⟩ := List.forall_mem_cons.mp hvalue
    simp only [convertEntries, hk, hv, ih hkey hvalue]

theorem membersStep_congr {self other : Tree → Reading} {family : Family} {path : Path}
    {index : Nat} {items : List Tree}
    (h : ∀ item ∈ items, ∀ node, Tree.Below node item → self node = other node) :
    catalog.membersStep self family path index items =
      catalog.membersStep other family path index items := by
  induction items generalizing index with
  | nil => rfl
  | cons item rest ih =>
    obtain ⟨hitem, hrest⟩ := List.forall_mem_cons.mp h
    cases item with
    | mapping entries => simp only [membersStep, mapValues_congr hitem, ih hrest]
    | _ => rfl

theorem helpItemsStep_congr {self other : Tree → HelpReading} {element : DeclaredType}
    {name : String} {index : Nat} {items : List Tree}
    (h : ∀ item ∈ items, self item = other item) :
    helpItemsStep self element name index items = helpItemsStep other element name index items := by
  induction items generalizing index with
  | nil => rfl
  | cons item rest ih =>
    obtain ⟨hitem, hrest⟩ := List.forall_mem_cons.mp h
    simp only [helpItemsStep, hitem, ih hrest]

theorem convertStep_congr {self other : Tree → Reading} {tree : Tree}
    (h : ∀ node, Tree.Below node tree → self node = other node) :
    convertStep coercion self tree = convertStep coercion other tree := by
  funext declared path
  cases tree with
  | scalar text => cases declared <;> rfl
  | sequence items =>
    cases declared with
    | list element =>
      have hitems : convertItems (self · element) path 0 items =
          convertItems (other · element) path 0 items :=
        convertItems_congr fun node hnode => by rw [h node (below_item hnode)]
      simp only [convertStep, hitems]
    | _ => rfl
  | mapping entries =>
    cases declared with
    | map key value =>
      have hentries : convertEntries (self · key) (self · value) path entries =
          convertEntries (other · key) (other · value) path entries :=
        convertEntries_congr (fun entry hentry => by rw [h _ (.single (.key hentry))])
          fun entry hentry => by rw [h _ (.single (.value hentry))]
      simp only [convertStep, hentries]
    | _ => rfl

theorem materializeStep_congr {self other : Tree → Reading} {tree : Tree}
    (h : ∀ node, Tree.Below node tree → self node = other node) :
    catalog.materializeStep coercion self tree = catalog.materializeStep coercion other tree := by
  funext declared path
  unfold materializeStep
  rw [convertStep_congr h]
  cases tree with
  | scalar text => cases declared <;> rfl
  | sequence items =>
    cases declared with
    | list element =>
      have hmembers : ∀ item ∈ items, ∀ node, Tree.Below node item → self node = other node :=
        fun item hitem node hnode => h node (hnode.tail (.item hitem))
      simp only [membersStep_congr hmembers]
    | _ => rfl
  | mapping entries =>
    cases declared with
    | record type => simp only [mapValues_congr h]
    | variant family => simp only [mapValues_congr h]
    | _ => rfl

theorem rootStep_congr {self other : Tree → Reading} {tree : Tree}
    (h : ∀ node, Tree.Below node tree → self node = other node) :
    catalog.rootStep coercion self tree = catalog.rootStep coercion other tree := by
  funext declared
  unfold rootStep
  rw [materializeStep_congr h]
  split
  · rfl
  · split
    · next name inner _ _ _ =>
      have hinner : ∀ node, Tree.Below node (.mapping inner) → self node = other node :=
        fun node hnode => h node (hnode.tail (.value (List.mem_singleton_self _)))
      rw [namedStep, namedStep, mapValues_congr hinner]
    · rfl

theorem helpStep_congr {self other : Tree → HelpReading} {tree : Tree}
    (h : ∀ node, Tree.Below node tree → self node = other node) :
    catalog.helpStep self tree = catalog.helpStep other tree := by
  funext declared name
  cases declared with
  | list element =>
    cases tree with
    | sequence items => exact helpItemsStep_congr fun item hitem => h item (below_item hitem)
    | _ => rfl
  | record type =>
    cases tree with
    | mapping entries => rw [helpStep, helpStep, mapValues_congr h]
    | _ => rfl
  | variant family =>
    cases tree with
    | mapping entries => rw [helpStep, helpStep, mapValues_congr h]
    | _ => rfl
  | _ => cases tree <;> rfl

end Descent

/-! ### Depth -/

theorem convert_recursion :
    Tree.Recursion (convertStep coercion) fun raw declared => convert coercion declared raw :=
  ⟨convertStep_convert, fun _ _ _ h => convertStep_congr h⟩

theorem materializeAt_recursion :
    Tree.Recursion (catalog.materializeStep coercion) (catalog.materializeAt coercion) :=
  ⟨materializeStep_materializeAt, fun _ _ _ h => materializeStep_congr h⟩

theorem helpBelow_recursion : Tree.Recursion catalog.helpStep catalog.helpBelow :=
  ⟨helpStep_helpBelow, fun _ _ _ h => helpStep_congr h⟩

/-- For a whole document the nodes below it are materialized, and these only. -/
theorem rootStep_eq_materializeRoot {self : Tree → Reading} {raw : Tree}
    (h : ∀ node, Tree.Below node raw → self node = catalog.materializeAt coercion node)
    (declared : DeclaredType) :
    catalog.rootStep coercion self raw declared =
      catalog.materializeRoot coercion raw declared := by
  rw [rootStep_congr h, rootStep_materializeAt]

/-- **Whatever the schemas are, nothing recurses deeper than its tree.**  Conversion,
materialization and the collection of help call themselves strictly below the node at hand, where
trees are less high, and a whole document is materialized by such calls too.  So there are never
more calls inside one another than the tree has levels: unrolled as often, each function has its
answer, whatever is put in the place of further calls. -/
theorem recursion_bounded (catalog : Catalog) (coercion : IntegerCoercion) :
    (∀ node tree, Tree.Below node tree → node.height < tree.height) ∧
    Tree.Recursion (convertStep coercion) (fun raw declared => convert coercion declared raw) ∧
    Tree.Recursion (catalog.materializeStep coercion) (catalog.materializeAt coercion) ∧
    Tree.Recursion catalog.helpStep catalog.helpBelow ∧
    Tree.CallsBelow (catalog.rootStep coercion) ∧
    ∀ (tree : Tree) (declared : DeclaredType) (depth : Nat), tree.height ≤ depth + 1 →
      (∀ start, (catalog.materializeStep coercion)^[depth + 1] start tree declared [] =
        catalog.materialize coercion tree declared) ∧
      (∀ start, catalog.rootStep coercion ((catalog.materializeStep coercion)^[depth] start) tree
        declared = catalog.materializeRoot coercion tree declared) ∧
      (∀ start, Entries.ofList (catalog.helpStep^[depth + 1] start tree declared "") =
        catalog.help tree declared) := by
  refine ⟨fun _ _ h => h.height_lt, convert_recursion, materializeAt_recursion,
    helpBelow_recursion, fun _ _ _ h => rootStep_congr h, fun tree declared depth hheight => ?_⟩
  refine ⟨fun start => ?_, fun start => ?_, fun start => ?_⟩
  · rw [materializeAt_recursion.iterate_eq start hheight, materialize]
  · refine rootStep_eq_materializeRoot (fun node hnode => ?_) declared
    have := hnode.height_lt
    exact materializeAt_recursion.iterate_eq start (by omega)
  · rw [helpBelow_recursion.iterate_eq start hheight, help]

/-- Two records that mention themselves and each other. -/
def ringCatalog : Catalog :=
  let ping : RecordType := ⟨"ring", "Ping"⟩
  let pong : RecordType := ⟨"ring", "Pong"⟩
  { definition := fun type =>
      { schema := ⟨type.name, none,
          [⟨"ping", .record ping, false, some ("of " ++ type.name)⟩,
            ⟨"pong", .record pong, false, none⟩]⟩
        construct := .ofGetters [("ping", ⟨.record ping, .isSkipped⟩),
          ("pong", ⟨.record pong, .isSkipped⟩)]
        leaf := none }
    registry := [] }

/-- Three records inside one another: what is put in the place of a fourth call is never asked. -/
theorem recursion_bounded_ring :
    ∃ (ping pong : RecordType) (tree : Tree) (value : Value),
      tree = .mapping [("pong", .mapping [("ping", .mapping [])]), ("ping", .mapping [])] ∧
      value = .record none ping [("ping", .record none ping []),
        ("pong", .record none pong [("ping", .record none ping [])])] ∧
      tree.height ≤ 2 + 1 ∧
      (∀ start, (ringCatalog.materializeStep .strict)^[2 + 1] start tree (.record ping) [] =
        .ok value) ∧
      ∀ start, Entries.ofList (ringCatalog.helpStep^[2 + 1] start tree (.record ping) "") =
        [("ping", "of Ping"), ("pong.ping", "of Pong")] := by
  let ping : RecordType := ⟨"ring", "Ping"⟩
  let tree : Tree := .mapping [("pong", .mapping [("ping", .mapping [])]), ("ping", .mapping [])]
  have hheight : tree.height ≤ 2 + 1 := by decide
  obtain ⟨hvalue, -, hhelp⟩ :=
    (recursion_bounded ringCatalog .strict).2.2.2.2.2 tree (.record ping) 2 hheight
  refine ⟨ping, ⟨"ring", "Pong"⟩, tree, _, rfl, rfl, hheight, fun start => ?_, fun start => ?_⟩
  · rw [hvalue]
    rfl
  · rw [hhelp]
    decide

end Catalog

end ConfigTree
