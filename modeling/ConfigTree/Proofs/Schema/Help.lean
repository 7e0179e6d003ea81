import ConfigTree.Proofs.Document.Rows
import ConfigTree.Proofs.Entries
import ConfigTree.Proofs.Schema.Recursion
import ConfigTree.Proofs.Schema.Typing
import ConfigTree.Proofs.Text.Lines
import ConfigTree.Schema.Document

/-! # Help sits on its field

The help of a tree is collected along its declared type and looked up along the tree, when the
document is written; the two meet in the dotted names of places only.  `Catalog.LeadsTo` says which
field a place belongs to, and knows neither of the two walks.

The table of help has the text of a field under a name exactly if a place of that name belongs to
the field (`mem_help_iff`), and so **each text is written at the row of its field, and nowhere
else** (`help_on_fields`).
-/
namespace ConfigTree.Catalog

open Schema

section Relations

variable (catalog : Catalog)

/-- The record type whose schema says what the entries of a mapping are: the declared record, or in
a family the one that the name in the mapping stands for. -/
inductive Describes : DeclaredType → List (String × Tree) → RecordType → Prop where
  | record (type : RecordType) (entries : List (String × Tree)) :
      Describes (.record type) entries type
  | variant {family : Family} {entries : List (String × Tree)} {name : String}
      {entry : RegistryEntry} :
      Entries.get? entries moduleNameKey = some (.scalar name) →
      catalog.registry.Names family.home name entry →
      Describes (.variant family) entries entry.record

/-- **The place leads to a node that is the value of a declared field**: through declared fields of
records, and through the items of lists. -/
inductive LeadsTo : DeclaredType → Tree → Path → FieldSpec → Tree → Prop where
  | field {declared : DeclaredType} {entries : List (String × Tree)} {type : RecordType}
      {spec : FieldSpec} {node : Tree} :
      catalog.Describes declared entries type → spec ∈ (catalog.schema type).fields →
      Entries.get? entries spec.name = some node →
      LeadsTo declared (.mapping entries) [.key spec.name] spec node
  | deeper {declared : DeclaredType} {entries : List (String × Tree)} {type : RecordType}
      {spec found : FieldSpec} {child node : Tree} {way : Path} :
      catalog.Describes declared entries type → spec ∈ (catalog.schema type).fields →
      Entries.get? entries spec.name = some child → LeadsTo spec.declared child way found node →
      LeadsTo declared (.mapping entries) (.key spec.name :: way) found node
  | item {element : DeclaredType} {items : List Tree} {index : Nat} {item node : Tree}
      {way : Path} {found : FieldSpec} :
      items[index]? = some item → LeadsTo element item way found node →
      LeadsTo (.list element) (.sequence items) (.index index :: way) found node

/-- The record types that can describe a mapping somewhere below a declared type. -/
inductive Describable : DeclaredType → RecordType → Prop where
  | record (type : RecordType) : Describable (.record type) type
  | list {element : DeclaredType} {type : RecordType} :
      Describable element type → Describable (.list element) type
  | entry {family : Family} {name : String} {entry : RegistryEntry} :
      Entries.get? catalog.registry (family.home, name) = some entry →
      Describable (.variant family) entry.record
  | field {declared : DeclaredType} {owner type : RecordType} {spec : FieldSpec} :
      Describable declared owner → spec ∈ (catalog.schema owner).fields →
      Describable spec.declared type → Describable declared type

end Relations

variable {catalog : Catalog}

/-! ### Places of fields -/

section Places

variable {declared : DeclaredType} {tree node : Tree} {way : Path} {spec : FieldSpec}

theorem Describes.unique {entries : List (String × Tree)} {type other : RecordType}
    (h : catalog.Describes declared entries type) (h' : catalog.Describes declared entries other) :
    type = other := by
  cases h with
  | record => cases h'; rfl
  | variant hname hnames =>
    cases h' with
    | variant hname' hnames' =>
      obtain rfl : _ = _ := Tree.scalar.inj (Option.some.inj (hname.symm.trans hname'))
      rw [← Registry.lookup?_eq_some_iff] at hnames hnames'
      rw [Option.some.inj (hnames.symm.trans hnames')]

theorem Describes.describable {entries : List (String × Tree)} {type : RecordType}
    (h : catalog.Describes declared entries type) : catalog.Describable declared type := by
  cases h with
  | record => exact .record type
  | variant _ hnames =>
    rcases hnames with hget | ⟨-, hget⟩
    · exact .entry hget
    · exact .entry hget

theorem leadsTo_mapping_iff {entries : List (String × Tree)} :
    catalog.LeadsTo declared (.mapping entries) way spec node ↔
      ∃ type, catalog.Describes declared entries type ∧
        ∃ first ∈ (catalog.schema type).fields, ∃ child,
          Entries.get? entries first.name = some child ∧ ∃ rest, way = .key first.name :: rest ∧
            (rest = [] ∧ spec = first ∧ node = child ∨
              catalog.LeadsTo first.declared child rest spec node) := by
  constructor
  · intro h
    cases h with
    | field htype hspec hget =>
      exact ⟨_, htype, spec, hspec, node, hget, [], rfl, .inl ⟨rfl, rfl, rfl⟩⟩
    | deeper htype hspec hget hrest =>
      exact ⟨_, htype, _, hspec, _, hget, _, rfl, .inr hrest⟩
  · rintro ⟨type, htype, first, hspec, child, hget, rest, rfl, ⟨rfl, rfl, rfl⟩ | hrest⟩
    · exact .field htype hspec hget
    · exact .deeper htype hspec hget hrest

theorem leadsTo_sequence_iff {items : List Tree} :
    catalog.LeadsTo declared (.sequence items) way spec node ↔
      ∃ element, declared = .list element ∧ ∃ index item, items[index]? = some item ∧
        ∃ rest, way = .index index :: rest ∧ catalog.LeadsTo element item rest spec node := by
  constructor
  · intro h
    cases h with
    | item hitem hrest => exact ⟨_, rfl, _, _, hitem, _, rfl, hrest⟩
  · rintro ⟨element, rfl, index, item, hitem, rest, rfl, hrest⟩
    exact .item hitem hrest

namespace LeadsTo

theorem nodeAt (h : catalog.LeadsTo declared tree way spec node) : tree.NodeAt way node := by
  induction h with
  | field _ _ hget => exact .entry hget (.here _)
  | deeper _ _ hget _ ih => exact .entry hget ih
  | item hitem _ ih => exact .item hitem ih

/-- The place ends with the name of the field. -/
theorem ends (h : catalog.LeadsTo declared tree way spec node) :
    ∃ front, way = front ++ [.key spec.name] := by
  induction h with
  | field => exact ⟨[], rfl⟩
  | deeper _ _ _ _ ih =>
    obtain ⟨front, rfl⟩ := ih
    exact ⟨_ :: front, rfl⟩
  | item _ _ ih =>
    obtain ⟨front, rfl⟩ := ih
    exact ⟨_ :: front, rfl⟩

theorem not_nil (h : catalog.LeadsTo declared tree [] spec node) : False := by
  obtain ⟨front, heq⟩ := h.ends
  simp at heq

/-- **A place belongs to one field**, if no record declares a field twice. -/
theorem unique (h : catalog.LeadsTo declared tree way spec node)
    (distinct : ∀ type, catalog.Describable declared type → (catalog.schema type).DistinctFields)
    {other : FieldSpec} {found : Tree} (h' : catalog.LeadsTo declared tree way other found) :
    spec = other := by
  induction h with
  | field htype hspec hget =>
    -- both ways are described by one record, where the key in front names one field
    obtain ⟨_, htype', first, hfirst, _, -, rest, hway, hcase⟩ := leadsTo_mapping_iff.mp h'
    obtain ⟨hname, rfl⟩ := List.cons.inj hway
    obtain rfl := htype.unique htype'
    rcases hcase with ⟨-, rfl, -⟩ | hrest
    · exact List.inj_on_of_nodup_map (distinct _ htype.describable) hspec hfirst
        (Segment.key.inj hname)
    · exact hrest.not_nil.elim
  | deeper htype hspec hget hrest ih =>
    obtain ⟨_, htype', first, hfirst, _, hget', rest, hway, hcase⟩ := leadsTo_mapping_iff.mp h'
    obtain ⟨hname, rfl⟩ := List.cons.inj hway
    obtain rfl := htype.unique htype'
    obtain rfl := List.inj_on_of_nodup_map (distinct _ htype.describable) hspec hfirst
      (Segment.key.inj hname)
    rcases hcase with ⟨rfl, -, -⟩ | hrest'
    · exact hrest.not_nil.elim
    · rw [hget, Option.some.injEq] at hget'
      subst hget'
      exact ih (fun type h => distinct type (.field htype.describable hspec h)) hrest'
  | item hitem hrest ih =>
    obtain ⟨_, hlist, _, item, hitem', rest, hway, hrest'⟩ := leadsTo_sequence_iff.mp h'
    obtain ⟨hindex, rfl⟩ := List.cons.inj hway
    obtain rfl := Segment.index.inj hindex
    obtain rfl := DeclaredType.list.inj hlist
    rw [hitem, Option.some.injEq] at hitem'
    subst hitem'
    exact ih (fun type h => distinct type (.list h)) hrest'

end LeadsTo

end Places

/-! ### The help that is collected -/

theorem namedRecord?_eq_some_iff {family : Family} {entries : List (String × Tree)}
    {type : RecordType} : catalog.namedRecord? family entries = some type ↔
      catalog.Describes (.variant family) entries type := by
  unfold namedRecord?
  simp only [Option.bind_eq_some_iff, Option.map_eq_some_iff]
  constructor
  · rintro ⟨name, ⟨node, hget, htext⟩, entry, hlookup, rfl⟩
    obtain rfl : node = .scalar name := by
      cases node with
      | scalar text => rw [Option.some.inj htext]
      | _ => cases htext
    exact .variant hget (Registry.lookup?_eq_some_iff.mp hlookup)
  · intro h
    cases h with
    | variant hget hnames =>
      exact ⟨_, ⟨_, hget, rfl⟩, _, Registry.lookup?_eq_some_iff.mpr hnames, rfl⟩

/-- The help of the fields that a mapping has, and what is below them. -/
theorem mem_helpOf_iff {readings : Entries String HelpReading} {name : String}
    {fields : List FieldSpec} {entry : String × String} :
    entry ∈ helpOf readings name fields ↔
      ∃ spec ∈ fields, ∃ reading, Entries.get? readings spec.name = some reading ∧
        ((∃ text, spec.help = some text ∧ entry = (childName name spec.name, text)) ∨
          entry ∈ reading spec.declared (childName name spec.name)) := by
  induction fields with
  | nil => simp [helpOf]
  | cons spec rest ih =>
    rw [helpOf, List.mem_append, ih]
    simp only [List.mem_cons, or_and_right, exists_or, exists_eq_left]
    refine or_congr_left ?_
    cases hget : Entries.get? readings spec.name with
    | none => simp
    | some reading =>
      have htext : entry ∈ (spec.help.map fun text => (childName name spec.name, text)).toList ↔
          ∃ text, spec.help = some text ∧ entry = (childName name spec.name, text) := by
        rw [Option.mem_toList, Option.map_eq_some_iff]
        exact exists_congr fun text => and_congr_right' eq_comm
      simp only [List.mem_append, htext, Option.some.injEq, exists_eq_left']

theorem mem_helpOfItems_iff {element : DeclaredType} {name : String} {index : Nat}
    {items : List Tree} {entry : String × String} :
    entry ∈ catalog.helpOfItems element name index items ↔
      ∃ i item, items[i]? = some item ∧
        entry ∈ catalog.helpBelow item element (childName name (Text.showNat (index + i))) := by
  induction items generalizing index with
  | nil => simp [helpOfItems]
  | cons first rest ih =>
    rw [helpOfItems, List.mem_append, ih]
    constructor
    · rintro (hfirst | ⟨i, item, hitem, hentry⟩)
      · exact ⟨0, first, rfl, hfirst⟩
      · refine ⟨i + 1, item, hitem, ?_⟩
        rwa [Nat.add_comm i 1, ← Nat.add_assoc]
    · rintro ⟨i, item, hitem, hentry⟩
      cases i with
      | zero =>
        obtain rfl : first = item := Option.some.inj hitem
        exact .inl hentry
      | succ i =>
        refine .inr ⟨i, item, hitem, ?_⟩
        rwa [Nat.add_assoc, Nat.add_comm 1 i]

theorem mem_helpBelow_sequence_iff {items : List Tree} {declared : DeclaredType} {name : String}
    {entry : String × String} :
    entry ∈ catalog.helpBelow (.sequence items) declared name ↔
      ∃ element, declared = .list element ∧ ∃ i item, items[i]? = some item ∧
        entry ∈ catalog.helpBelow item element (childName name (Text.showNat i)) := by
  cases declared with
  | list element => simp [helpBelow, mem_helpOfItems_iff]
  | _ => simp [helpBelow]

theorem mem_helpBelow_mapping_iff {entries : List (String × Tree)} {declared : DeclaredType}
    {name : String} {entry : String × String} :
    entry ∈ catalog.helpBelow (.mapping entries) declared name ↔
      ∃ type, catalog.Describes declared entries type ∧
        entry ∈ helpOf (catalog.helpReadings entries) name (catalog.schema type).fields := by
  cases declared with
  | record type =>
    rw [helpBelow]
    refine ⟨fun h => ⟨type, .record type entries, h⟩, ?_⟩
    rintro ⟨_, htype, h⟩
    cases htype
    exact h
  | variant family =>
    simp only [← namedRecord?_eq_some_iff, helpBelow]
    cases catalog.namedRecord? family entries with
    | none => simp
    | some type => simp
  | _ =>
    constructor
    · intro h
      cases h
    · rintro ⟨type, htype, -⟩
      cases htype

/-- **The help below a node is that of the fields its places belong to.** -/
theorem mem_helpBelow_iff (tree : Tree) {declared : DeclaredType} {place : Path}
    {entry : String × String} :
    entry ∈ catalog.helpBelow tree declared place.flatName ↔
      ∃ way spec node, catalog.LeadsTo declared tree way spec node ∧
        spec.help = some entry.2 ∧ entry.1 = Path.flatName (place ++ way) := by
  induction tree using Tree.induction generalizing declared place with
  | scalar text =>
    constructor
    · intro h
      cases declared <;> cases h
    · rintro ⟨_, _, _, hway, -⟩
      cases hway
  | sequence items ih =>
    rw [mem_helpBelow_sequence_iff]
    constructor
    · rintro ⟨element, rfl, i, item, hitem, hentry⟩
      rw [Path.childName_flatName_index, ih item (List.mem_of_getElem? hitem)] at hentry
      obtain ⟨way, spec, node, hway, hhelp, hname⟩ := hentry
      exact ⟨.index i :: way, spec, node, .item hitem hway, hhelp, by simpa using hname⟩
    · rintro ⟨way, spec, node, hway, hhelp, hname⟩
      obtain ⟨element, rfl, i, item, hitem, rest, rfl, hrest⟩ := leadsTo_sequence_iff.mp hway
      refine ⟨element, rfl, i, item, hitem, ?_⟩
      rw [Path.childName_flatName_index, ih item (List.mem_of_getElem? hitem)]
      exact ⟨rest, spec, node, hrest, hhelp, by simpa using hname⟩
  | mapping entries ih =>
    have hreading : ∀ {key reading},
        Entries.get? (catalog.helpReadings entries) key = some reading ↔
          ∃ child, Entries.get? entries key = some child ∧ catalog.helpBelow child = reading := by
      intro key reading
      rw [helpReadings_eq_mapValues, Entries.get?_mapValues, Option.map_eq_some_iff]
    rw [mem_helpBelow_mapping_iff]
    constructor
    · rintro ⟨type, htype, hentry⟩
      obtain ⟨first, hfirst, reading, hget, hcase⟩ := mem_helpOf_iff.mp hentry
      obtain ⟨child, hchild, rfl⟩ := hreading.mp hget
      rw [Path.childName_flatName_key] at hcase
      rcases hcase with ⟨text, hhelp, rfl⟩ | hbelow
      · exact ⟨[.key first.name], first, child, .field htype hfirst hchild, hhelp, rfl⟩
      · rw [ih (first.name, child) (Entries.mem_of_get? hchild)] at hbelow
        obtain ⟨way, spec, node, hway, hhelp, hname⟩ := hbelow
        exact ⟨.key first.name :: way, spec, node, .deeper htype hfirst hchild hway, hhelp,
          by simpa using hname⟩
    · rintro ⟨way, spec, node, hway, hhelp, hname⟩
      obtain ⟨type, htype, first, hfirst, child, hchild, rest, rfl, hcase⟩ :=
        leadsTo_mapping_iff.mp hway
      refine ⟨type, htype, mem_helpOf_iff.mpr
        ⟨first, hfirst, _, hreading.mpr ⟨child, hchild, rfl⟩, ?_⟩⟩
      rw [Path.childName_flatName_key]
      rcases hcase with ⟨rfl, rfl, rfl⟩ | hrest
      · exact .inl ⟨entry.2, hhelp, Prod.ext hname rfl⟩
      · right
        rw [ih (first.name, child) (Entries.mem_of_get? hchild)]
        exact ⟨rest, spec, node, hrest, hhelp, by simpa using hname⟩

/-! ### The table of help -/

/-- The comment that the help of a tree has for a place. -/
def helpAt (catalog : Catalog) (declared : DeclaredType) (tree : Tree) (place : Path) :
    Option String :=
  Tree.commentAt (catalog.help tree declared) place.flatName

section Table

variable {declared : DeclaredType} {tree : Tree}
  (distinct : ∀ type, catalog.Describable declared type → (catalog.schema type).DistinctFields)
  (hkeys : tree.AllKeys IsSegment)
include distinct hkeys

/-- **The table of help has the texts of the fields under the names of their places.** -/
theorem mem_help_iff {name text : String} :
    (name, text) ∈ catalog.help tree declared ↔ ∃ way spec node,
      catalog.LeadsTo declared tree way spec node ∧ spec.help = some text ∧ way.dotted = name := by
  have hbelow : ∀ {entry}, entry ∈ catalog.helpBelow tree declared "" ↔ ∃ way spec node,
      catalog.LeadsTo declared tree way spec node ∧ spec.help = some entry.2 ∧
        Path.dotted way = entry.1 := by
    intro entry
    rw [← Path.flatName_nil, mem_helpBelow_iff]
    refine exists_congr fun way => exists_congr fun spec => exists_congr fun node =>
      and_congr_right fun hway => and_congr_right fun _ => ?_
    rw [List.nil_append, hway.nodeAt.flatName_eq hkeys, eq_comm]
  rw [help, Entries.mem_ofList_iff, hbelow]
  intro pair hpair other hother heq
  obtain ⟨way, spec, node, hway, hhelp, hname⟩ := hbelow.mp hpair
  obtain ⟨way', spec', node', hway', hhelp', hname'⟩ := hbelow.mp hother
  obtain rfl : way = way' :=
    hway.nodeAt.eq_of_dotted hway'.nodeAt hkeys (by rw [hname, hname', heq])
  obtain rfl := hway.unique distinct hway'
  exact Prod.ext heq (Option.some.inj (hhelp.symm.trans hhelp'))

/-- **The comment at a place of the tree is the help of the field it belongs to**, on one line. -/
theorem helpAt_eq_some_iff {place : Path} {found : Tree} (hplace : tree.NodeAt place found)
    {line : String} : catalog.helpAt declared tree place = some line ↔
      ∃ spec node text, catalog.LeadsTo declared tree place spec node ∧ spec.help = some text ∧
        ¬Text.IsBlankText text ∧ line = " ".intercalate (Text.lines text) := by
  have hget : ∀ {text}, Entries.get? (catalog.help tree declared) place.flatName = some text ↔
      ∃ spec node, catalog.LeadsTo declared tree place spec node ∧ spec.help = some text := by
    intro text
    have hnodup : Entries.NodupKeys (catalog.help tree declared) := Entries.nodupKeys_ofList _
    rw [Entries.get?_eq_some_iff hnodup, hplace.flatName_eq hkeys,
      mem_help_iff distinct hkeys]
    constructor
    · rintro ⟨way, spec, node, hway, hhelp, hname⟩
      obtain rfl := hway.nodeAt.eq_of_dotted hplace hkeys hname
      exact ⟨spec, node, hway, hhelp⟩
    · rintro ⟨spec, node, hway, hhelp⟩
      exact ⟨place, spec, node, hway, hhelp, rfl⟩
  rw [helpAt, Tree.commentAt_eq_some_iff]
  constructor
  · rintro ⟨text, htext, hline⟩
    obtain ⟨spec, node, hway, hhelp⟩ := hget.mp htext
    exact ⟨spec, node, text, hway, hhelp, hline⟩
  · rintro ⟨spec, node, text, hway, hhelp, hline⟩
    exact ⟨text, hget.mpr ⟨spec, node, hway, hhelp⟩, hline⟩

end Table

/-- **Help sits on its field.**  The table of help has the text of a declared field exactly under
the names of the places that lead to a value of the field.  Such a place has a row of its own in the
document, as no two rows have one place, and the document with help is made of the rows of the
document without comments.  The comment at a row is the help of the field that its place leads to,
its lines joined by a space, if the help is not blank: it stands behind the row if the value is
written in it, and otherwise above the row. -/
theorem help_on_fields (catalog : Catalog) (declared : DeclaredType) (tree : Tree)
    (distinct : ∀ type, catalog.Describable declared type → (catalog.schema type).DistinctFields)
    (hvalid : tree.Valid) (hkeys : tree.AllKeys IsSegment) :
    (∀ name text, (name, text) ∈ catalog.help tree declared ↔ ∃ way spec node,
      catalog.LeadsTo declared tree way spec node ∧ spec.help = some text ∧
        way.dotted = name) ∧
    (∀ way spec node, catalog.LeadsTo declared tree way spec node →
      tree.at? way = some node ∧ ∃ front lead, way = front ++ [.key spec.name] ∧
        Tree.entryRowAt front lead spec.name node ∈ tree.rows) ∧
    (tree.rows.map Tree.Row.place).Nodup ∧
    tree.documentLines [] = tree.rows.map (fun row => row.lead ++ row.text) ∧
    (∀ row ∈ tree.rows, ∀ line, catalog.helpAt declared tree row.place = some line ↔
      ∃ spec node text, catalog.LeadsTo declared tree row.place spec node ∧
        spec.help = some text ∧ ¬Text.IsBlankText text ∧
          line = " ".intercalate (Text.lines text)) ∧
    catalog.treeToYaml declared tree =
      "\n".intercalate (Tree.linesOf (catalog.helpAt declared tree) tree.rows) ++ "\n" ∧
    ∀ line ∈ Tree.linesOf (catalog.helpAt declared tree) tree.rows, '\n' ∉ line.toList := by
  -- a place of a field ends with a key, so the root and the items of lists have no comments
  have hroot : catalog.helpAt declared tree [] = none := by
    refine Option.eq_none_iff_forall_ne_some.mpr fun line hline => ?_
    obtain ⟨_, _, _, hway, -⟩ := (helpAt_eq_some_iff distinct hkeys (.here tree)).mp hline
    exact hway.not_nil
  have hatKeys : Tree.AtKeys (catalog.helpAt declared tree) tree := by
    intro front index node hnode
    refine Option.eq_none_iff_forall_ne_some.mpr fun line hline => ?_
    obtain ⟨_, _, _, hway, -⟩ := (helpAt_eq_some_iff distinct hkeys hnode).mp hline
    obtain ⟨before, heq⟩ := hway.ends
    simp at heq
  have hlines : tree.documentLines (catalog.help tree declared) =
      Tree.linesOf (catalog.helpAt declared tree) tree.rows := by
    rw [Tree.documentLines_eq_linesBy]
    exact Tree.linesBy_eq_rows _ hvalid hroot hatKeys
  refine ⟨fun name text => mem_help_iff distinct hkeys, fun way spec node hway => ?_,
    Tree.nodup_rows tree hvalid, Tree.documentLines_nil hvalid, fun row hrow line => ?_, ?_,
    Tree.notMem_linesOf (fun place line hline => ?_) tree.isLine_rows⟩
  · obtain ⟨front, rfl⟩ := hway.ends
    obtain ⟨lead, hrow⟩ := Tree.exists_row hway.nodeAt
    exact ⟨hway.nodeAt.at?, front, lead, rfl, hrow⟩
  · obtain ⟨node, hnode⟩ := Tree.exists_node_of_mem_rows hvalid hrow
    exact helpAt_eq_some_iff distinct hkeys hnode
  · rw [treeToYaml, Tree.toYamlWith, hlines]
  · obtain ⟨text, -, -, rfl⟩ := Tree.commentAt_eq_some_iff.mp hline
    exact Tree.notMem_intercalate_lines text

/-- The list that an item begins with has its comment behind the dash of the item. -/
theorem help_on_fields_links :
    ∃ (link : RecordType) (inner : Tree) (tree : Tree),
      inner = .sequence [.mapping [("module_name", .scalar "Link"), ("size", .scalar "1")]] ∧
      tree = .mapping [("size", .scalar "2"),
        ("next", .sequence [.mapping [("next", inner), ("module_name", .scalar "Link")]])] ∧
      (∀ type, (chainCatalog .multi).Describable (.record link) type →
        ((chainCatalog .multi).schema type).DistinctFields) ∧
      tree.Valid ∧ tree.AllKeys IsSegment ∧
      ("next.0.next", "Further links") ∈ (chainCatalog .multi).help tree (.record link) ∧
      tree.at? [.key "next", .index 0, .key "next"] = some inner ∧
      (chainCatalog .multi).treeToYaml (.record link) tree = "\n".intercalate
        ["size: '2'  # How many items", "# Further links", "next:", "  - # Further links",
          "    next:", "      - module_name: Link", "        size: '1'  # How many items",
          "    module_name: Link"] ++ "\n" := by
  let link : RecordType := ⟨"chain", "LinkConfig"⟩
  let family := linkFamily .multi
  let inner : Tree :=
    .sequence [.mapping [("module_name", .scalar "Link"), ("size", .scalar "1")]]
  let tree : Tree := .mapping [("size", .scalar "2"),
    ("next", .sequence [.mapping [("next", inner), ("module_name", .scalar "Link")]])]
  let spec : FieldSpec := ⟨"next", .variants family, false, some "Further links"⟩
  have hdistinct : ∀ type, (chainCatalog .multi).Describable (.record link) type →
      ((chainCatalog .multi).schema type).DistinctFields := fun _ _ => by
    show ["size", "next"].Nodup
    decide
  have hvalid : tree.Valid := by
    simp [tree, inner, Tree.Valid, Tree.ValidEntries, Tree.ValidItems, Entries.NodupKeys,
      Entries.keys]
  have hkeys : tree.AllKeys IsSegment := by decide +kernel
  have hspec : ∀ type, spec ∈ ((chainCatalog .multi).schema type).fields :=
    fun _ => .tail _ (.head _)
  have hway : (chainCatalog .multi).LeadsTo (.record link) tree
      [.key "next", .index 0, .key "next"] spec inner := by
    have hnames : (chainCatalog .multi).registry.Names family.home "Link" ⟨"LinkConfig", link,
        [(family, link)]⟩ := .inr ⟨by decide, by decide⟩
    have hitem : (chainCatalog .multi).LeadsTo (.variant family)
        (.mapping [("next", inner), ("module_name", .scalar "Link")]) [.key spec.name] spec inner :=
      .field (.variant rfl hnames) (hspec link) rfl
    have hlist : (chainCatalog .multi).LeadsTo spec.declared
        (.sequence [.mapping [("next", inner), ("module_name", .scalar "Link")]])
        [.index 0, .key spec.name] spec inner := .item rfl hitem
    exact .deeper (.record link _) (hspec link) rfl hlist
  obtain ⟨hhelp, hplaces, -⟩ :=
    help_on_fields (chainCatalog .multi) (.record link) tree hdistinct hvalid hkeys
  exact ⟨link, inner, tree, rfl, rfl, hdistinct, hvalid, hkeys,
    (hhelp "next.0.next" "Further links").mpr ⟨_, spec, inner, hway, rfl, by decide +kernel⟩,
    (hplaces _ spec inner hway).1, by decide +kernel⟩

end ConfigTree.Catalog
