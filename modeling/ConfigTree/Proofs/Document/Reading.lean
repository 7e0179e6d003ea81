import ConfigTree.Document.Reading
import ConfigTree.Proofs.Document.Layout
import ConfigTree.Proofs.Yaml.Node
import ConfigTree.Proofs.Yaml.Value

/-! # Reading the tokens of a tree

The tokens of a tree are those of a node, and the node means a tree of strings.  It has the shape of
the tree that was written, and its texts are what is read back from the texts of that one:
`reread?`.
-/
namespace ConfigTree

namespace Tree

open Yaml

/-! ### Nodes -/

/-- The node of a text, if the text can be read. -/
def scalarNode? (text : String) : Option Node :=
  match scalarToken text with
  | .ok (.scalar plain read) => some (.scalar ⟨none, none⟩ plain read)
  | _ => none

/-- The node of a key, which has to be short enough and on its line. -/
def keyNode? (key : String) : Option Node :=
  if fitsKey (scalarChars key) then scalarNode? key else none

mutual
/-- The node of a tree, if its texts can be read. -/
def toNode? : Tree → Option Node
  | .scalar text => scalarNode? text
  | .sequence items => (itemNodes? items).map (.sequence ⟨none, none⟩)
  | .mapping entries => (entryNodes? entries).map (.mapping ⟨none, none⟩)

/-- The nodes of the items of a sequence. -/
def itemNodes? : List Tree → Option (List Node)
  | [] => some []
  | item :: rest =>
    (toNode? item).bind fun node => (itemNodes? rest).bind fun nodes => some (node :: nodes)

/-- The nodes of the entries of a mapping. -/
def entryNodes? : List (String × Tree) → Option (List (Node × Node))
  | [] => some []
  | (key, value) :: rest =>
    (keyNode? key).bind fun key => (toNode? value).bind fun value =>
      (entryNodes? rest).bind fun entries => some ((key, value) :: entries)
end

theorem itemNodes?_cons_eq_some {item : Tree} {rest : List Tree} {nodes : List Node}
    (h : itemNodes? (item :: rest) = some nodes) :
    ∃ node more, item.toNode? = some node ∧ itemNodes? rest = some more ∧ nodes = node :: more := by
  obtain ⟨node, hnode, h⟩ := Option.bind_eq_some_iff.mp h
  obtain ⟨more, hmore, ⟨⟩⟩ := Option.bind_eq_some_iff.mp h
  exact ⟨node, more, hnode, hmore, rfl⟩

theorem entryNodes?_cons_eq_some {key : String} {value : Tree} {rest : List (String × Tree)}
    {nodes : List (Node × Node)} (h : entryNodes? ((key, value) :: rest) = some nodes) :
    ∃ k v more, keyNode? key = some k ∧ value.toNode? = some v ∧ entryNodes? rest = some more ∧
      nodes = (k, v) :: more := by
  obtain ⟨k, hkey, h⟩ := Option.bind_eq_some_iff.mp h
  obtain ⟨v, hvalue, h⟩ := Option.bind_eq_some_iff.mp h
  obtain ⟨more, hmore, ⟨⟩⟩ := Option.bind_eq_some_iff.mp h
  exact ⟨k, v, more, hkey, hvalue, hmore, rfl⟩

theorem scalarNode?_eq_some {text : String} {node : Node} (h : scalarNode? text = some node) :
    ∃ plain read, node = .scalar ⟨none, none⟩ plain read ∧
      scalarToken text = .ok (.scalar plain read) ∧ readBack? text = some read ∧
      (plain = true → Value.ofPlain read = .ok (.string read)) := by
  unfold scalarNode? at h
  split at h
  · next plain read htoken =>
    obtain rfl : .scalar ⟨none, none⟩ plain read = node := Option.some.inj h
    obtain ⟨_, _, htokens, hread, hstring⟩ := scalarToken_eq_ok htoken
    cases htokens
    exact ⟨plain, read, rfl, htoken, hread, hstring⟩
  · cases h

theorem toOption_scalarToken (text : String) :
    (scalarToken text).toOption.map ([·]) = (scalarNode? text).map Node.blockTokens := by
  unfold scalarNode?
  cases htoken : scalarToken text with
  | error e => rfl
  | ok token =>
    obtain ⟨plain, read, rfl, -⟩ := scalarToken_eq_ok htoken
    rfl

theorem toOption_keyToken (first : Bool) (key : String) :
    (keyToken first (scalarChars key) (scalarToken key)).toOption.map ([·]) =
      (keyNode? key).map Node.blockTokens := by
  unfold keyNode? keyToken
  rw [toOption_bind]
  split
  · next hfits => rw [← toOption_scalarToken]; cases (scalarToken key).toOption <;> rfl
  · next hfits => cases (scalarToken key).toOption <;> rfl

mutual
/-- **The tokens of a tree are those of its node.** -/
theorem toOption_nodeTokens : (tree : Tree) →
    tree.nodeTokens.toOption = tree.toNode?.map Node.blockTokens
  | .scalar text => by
    rw [nodeTokens, toOption_map, toNode?]
    exact toOption_scalarToken text
  | .sequence [] => rfl
  | .sequence (item :: rest) => by
    rw [nodeTokens, List.isEmpty_cons, if_neg Bool.false_ne_true, toOption_map,
      toOption_itemTokens (item :: rest), toNode?]
    cases hnodes : itemNodes? (item :: rest) with
    | none => rfl
    | some nodes =>
      -- There is an item, so the node is not written with brackets.
      obtain ⟨node, more, -, -, rfl⟩ := itemNodes?_cons_eq_some hnodes
      simp [Node.blockTokens]
  | .mapping [] => rfl
  | .mapping (entry :: rest) => by
    rw [nodeTokens, List.isEmpty_cons, if_neg Bool.false_ne_true, toOption_map,
      toOption_entryTokens true (entry :: rest), toNode?]
    cases hnodes : entryNodes? (entry :: rest) with
    | none => rfl
    | some nodes =>
      obtain ⟨k, v, more, -, -, -, rfl⟩ := entryNodes?_cons_eq_some hnodes
      simp [Node.blockTokens]

theorem toOption_itemTokens : (items : List Tree) →
    (itemTokens items).toOption = (itemNodes? items).map Node.itemTokens
  | [] => rfl
  | item :: rest => by
    rw [itemTokens, toOption_bind, toOption_nodeTokens item, itemNodes?]
    cases item.toNode? with
    | none => rfl
    | some node =>
      simp only [Option.map_some, Option.bind_some, toOption_bind, toOption_itemTokens rest]
      cases itemNodes? rest <;> rfl

theorem toOption_entryTokens (first : Bool) : (entries : List (String × Tree)) →
    (entryTokens first entries).toOption = (entryNodes? entries).map Node.entryTokens
  | [] => rfl
  | (key, value) :: rest => by
    have hkey := toOption_keyToken first key
    rw [entryTokens, toOption_bind, entryNodes?]
    cases hnode : keyNode? key with
    | none =>
      rw [hnode, Option.map_none, Option.map_eq_none_iff] at hkey
      rw [hkey]
      rfl
    | some node =>
      rw [hnode, Option.map_some, Option.map_eq_some_iff] at hkey
      obtain ⟨token, hkey, htoken⟩ := hkey
      rw [hkey]
      simp only [Option.bind_some, toOption_bind, toOption_nodeTokens value,
        toOption_entryTokens false rest]
      cases value.toNode? with
      | none => rfl
      | some node' =>
        cases entryNodes? rest with
        | none => rfl
        | some nodes =>
          simp [Node.entryTokens, ← htoken, Except.toOption, pure, Except.pure]
end

/-! ### Bare nodes -/

theorem bare_scalarNode? {text : String} {node : Node} (h : scalarNode? text = some node) :
    node.Bare := by
  obtain ⟨plain, read, rfl, -⟩ := scalarNode?_eq_some h
  rfl

theorem scalarNode?_of_keyNode? {key : String} {node : Node} (h : keyNode? key = some node) :
    fitsKey (scalarChars key) = true ∧ scalarNode? key = some node := by
  unfold keyNode? at h
  split at h
  · next hfits => exact ⟨hfits, h⟩
  · cases h

mutual
/-- The node of a tree has neither properties nor aliases in it. -/
theorem bare_toNode? : (tree : Tree) → ∀ node ∈ tree.toNode?, node.Bare
  | .scalar _ => fun _ h => bare_scalarNode? h
  | .sequence items => by
    intro node h
    obtain ⟨nodes, hnodes, rfl⟩ := Option.map_eq_some_iff.mp h
    exact ⟨rfl, bare_itemNodes? items nodes hnodes⟩
  | .mapping entries => by
    intro node h
    obtain ⟨nodes, hnodes, rfl⟩ := Option.map_eq_some_iff.mp h
    exact ⟨rfl, bare_entryNodes? entries nodes hnodes⟩

theorem bare_itemNodes? : (items : List Tree) → ∀ nodes ∈ itemNodes? items, Node.BareItems nodes
  | [] => by
    rintro nodes ⟨⟩
    trivial
  | item :: rest => by
    intro nodes h
    obtain ⟨node, more, hnode, hmore, rfl⟩ := itemNodes?_cons_eq_some h
    exact ⟨bare_toNode? item node hnode, bare_itemNodes? rest more hmore⟩

theorem bare_entryNodes? : (entries : List (String × Tree)) →
    ∀ nodes ∈ entryNodes? entries, Node.BareEntries nodes
  | [] => by
    rintro nodes ⟨⟩
    trivial
  | (key, value) :: rest => by
    intro nodes h
    obtain ⟨k, v, more, hkey, hvalue, hmore, rfl⟩ := entryNodes?_cons_eq_some h
    exact ⟨bare_scalarNode? (scalarNode?_of_keyNode? hkey).2, bare_toNode? value v hvalue,
      bare_entryNodes? rest more hmore⟩
end

/-- **The parser finds the node of a tree** in its tokens. -/
theorem toOption_ofTokens? (tree : Tree) :
    (tree.nodeTokens >>= Node.ofTokens?).toOption = tree.toNode?.map some := by
  rw [toOption_bind, toOption_nodeTokens]
  cases hnode : tree.toNode? with
  | none => rfl
  | some node =>
    have hread := Node.ofTokens?_blockTokens (bare_toNode? tree node hnode)
    rw [Option.map_some, Option.bind_some, hread]
    rfl

/-! ### Values -/

mutual
/-- A tree as a value: its texts are strings. -/
def toValue : Tree → Yaml.Value
  | .scalar text => .string text
  | .sequence items => .sequence (itemValues items)
  | .mapping entries => .mapping (entryValues entries)

/-- The items of a sequence as values. -/
def itemValues : List Tree → List Yaml.Value
  | [] => []
  | item :: rest => toValue item :: itemValues rest

/-- The entries of a mapping as values. -/
def entryValues : List (String × Tree) → List (Yaml.Value × Yaml.Value)
  | [] => []
  | (key, value) :: rest => (.string key, toValue value) :: entryValues rest
end

mutual
/-- A value that is a valid tree becomes that tree. -/
theorem toTree_toValue : (tree : Tree) → tree.Valid → tree.toValue.toTree = tree
  | .scalar _ => fun _ => rfl
  | .sequence items => fun h => by
    rw [toValue, Value.toTree, toTrees_itemValues items h]
  | .mapping entries => fun h => by
    rw [toValue, Value.toTree, toPairs_entryValues entries h.2, ofPairs,
      Entries.ofList_eq_self h.1]

theorem toTrees_itemValues : (items : List Tree) → ValidItems items →
    Value.toTrees (itemValues items) = items
  | [] => fun _ => rfl
  | item :: rest => fun h => by
    rw [itemValues, Value.toTrees, toTree_toValue item h.1, toTrees_itemValues rest h.2]

theorem toPairs_entryValues : (entries : List (String × Tree)) → ValidEntries entries →
    Value.toPairs (entryValues entries) = entries
  | [] => fun _ => rfl
  | (key, value) :: rest => fun h => by
    rw [entryValues, Value.toPairs, toTree_toValue value h.1, toPairs_entryValues rest h.2]
    rfl
end

/-! ### Reading back -/

mutual
/-- The tree that is read back from a tree, if its texts can be read, its collections are not nested
more than `depth` deep and no mapping gets a key twice. -/
def reread? : (depth : Nat) → Tree → Option Tree
  | _, .scalar text => (readBack? text).map .scalar
  | depth + 1, .sequence items => (rereadItems? depth items).map .sequence
  | depth + 1, .mapping entries => (rereadEntries? depth [] entries).map .mapping
  | 0, _ => none

/-- The items that are read back from the items of a sequence. -/
def rereadItems? (depth : Nat) : List Tree → Option (List Tree)
  | [] => some []
  | item :: rest =>
    (reread? depth item).bind fun item => (rereadItems? depth rest).bind fun rest =>
      some (item :: rest)

/-- The entries that are read back from the entries of a mapping, behind those with the given
keys. -/
def rereadEntries? (depth : Nat) (keys : List String) :
    List (String × Tree) → Option (List (String × Tree))
  | [] => some []
  | (key, value) :: rest =>
    (readBack? key).bind fun key =>
      if keys.contains key then none
      else (reread? depth value).bind fun value =>
        (rereadEntries? depth (key :: keys) rest).bind fun rest => some ((key, value) :: rest)
end

theorem rereadItems?_cons_eq_some_iff {depth : Nat} {item : Tree} {rest read : List Tree} :
    rereadItems? depth (item :: rest) = some read ↔
      ∃ t ts, reread? depth item = some t ∧ rereadItems? depth rest = some ts ∧ read = t :: ts := by
  rw [rereadItems?]
  cases reread? depth item <;> cases rereadItems? depth rest <;> simp [eq_comm]

theorem rereadEntries?_cons_eq_some_iff {depth : Nat} {keys : List String} {key : String}
    {value : Tree} {rest read : List (String × Tree)} :
    rereadEntries? depth keys ((key, value) :: rest) = some read ↔
      ∃ k t ts, readBack? key = some k ∧ k ∉ keys ∧ reread? depth value = some t ∧
        rereadEntries? depth (k :: keys) rest = some ts ∧ read = (k, t) :: ts := by
  rw [rereadEntries?, Option.bind_eq_some_iff]
  constructor
  · rintro ⟨k, hk, h⟩
    split at h
    · cases h
    next hnew =>
      obtain ⟨t, ht, h⟩ := Option.bind_eq_some_iff.mp h
      obtain ⟨ts, hts, ⟨⟩⟩ := Option.bind_eq_some_iff.mp h
      exact ⟨k, t, ts, hk, by simpa using hnew, ht, hts, rfl⟩
  · rintro ⟨k, t, ts, hk, hnew, ht, hts, rfl⟩
    exact ⟨k, hk, by simp [hnew, ht, hts]⟩

theorem settles_scalarNode? {text : String} {node : Node} (h : scalarNode? text = some node)
    (sharing : Value.Sharing) (depth : Nat) :
    Value.Settles (Value.ofNodeWithin sharing depth false node)
      ((readBack? text).map .string) := by
  obtain ⟨plain, read, rfl, -, hread, hstring⟩ := scalarNode?_eq_some h
  rw [hread]
  exact Value.settles_scalar hstring

theorem any_same_key {seen : List (Yaml.Value × Yaml.Value)} {keys : List String}
    (h : seen.map Prod.fst = keys.map .string) (key : String) :
    seen.any (fun entry => Value.same entry.1 (.string key)) = keys.contains key := by
  have hany : seen.any (fun entry => Value.same entry.1 (.string key)) =
      (seen.map Prod.fst).any (Value.same · (.string key)) := by
    rw [List.any_map]
    rfl
  rw [hany, h, List.any_map, List.contains_eq_any_beq]
  congr 1
  funext other
  show (other == key) = (key == other)
  rw [Bool.beq_comm]

/-- The entries that are read back as values, behind those that have been seen. -/
theorem map_rereadEntries? {seen : List (Yaml.Value × Yaml.Value)} {keys : List String}
    (h : seen.map Prod.fst = keys.map .string) (depth : Nat) (key : String) (value : Tree)
    (rest : List (String × Tree)) :
    (rereadEntries? depth keys ((key, value) :: rest)).map
        (fun entries => seen.reverse ++ entryValues entries) =
      (readBack? key).bind fun k =>
        if seen.any (fun entry => Value.same entry.1 (.string k)) then none
        else ((reread? depth value).map toValue).bind fun v =>
          (rereadEntries? depth (k :: keys) rest).map fun entries =>
            ((.string k, v) :: seen).reverse ++ entryValues entries := by
  simp only [rereadEntries?, any_same_key h]
  cases readBack? key with
  | none => rfl
  | some k =>
    by_cases hk : k ∈ keys
    · simp [hk]
    cases reread? depth value with
    | none => simp
    | some t =>
      cases hrest : rereadEntries? depth (k :: keys) rest <;> simp [hk, hrest, entryValues]

variable (sharing : Value.Sharing)

mutual
/-- **What the node of a tree means**: the tree that is read back. -/
theorem settles_toNode? : (tree : Tree) → ∀ depth, ∀ node ∈ tree.toNode?,
    Value.Settles (Value.ofNodeWithin sharing depth false node) ((reread? depth tree).map toValue)
  | .scalar text => fun depth node h => by
    have hsettles := settles_scalarNode? h sharing depth
    rw [reread?, Option.map_map]
    exact hsettles
  | .sequence items => fun depth node h => by
    obtain ⟨nodes, hnodes, rfl⟩ := Option.map_eq_some_iff.mp h
    cases depth with
    | zero => exact Value.settles_sequence_zero
    | succ depth =>
      have hsettles := Value.settles_sequence (settles_itemNodes? items depth nodes hnodes)
      rw [Option.map_map] at hsettles
      rw [reread?, Option.map_map]
      exact hsettles
  | .mapping entries => fun depth node h => by
    obtain ⟨nodes, hnodes, rfl⟩ := Option.map_eq_some_iff.mp h
    cases depth with
    | zero => exact Value.settles_mapping_zero
    | succ depth =>
      have hsettles := Value.settles_mapping
        (settles_entryNodes? entries depth [] [] rfl nodes hnodes)
      rw [Option.map_map] at hsettles
      rw [reread?, Option.map_map]
      exact hsettles

theorem settles_itemNodes? : (items : List Tree) → ∀ depth, ∀ nodes ∈ itemNodes? items,
    Value.Settles (nodes.mapM (Value.ofNodeWithin sharing depth false))
      ((rereadItems? depth items).map itemValues)
  | [] => by
    rintro depth nodes ⟨⟩
    exact Value.settles_pure []
  | item :: rest => by
    intro depth nodes h
    obtain ⟨node, more, hnode, hmore, rfl⟩ := itemNodes?_cons_eq_some h
    have hitem := settles_toNode? item depth node hnode
    have hrest := settles_itemNodes? rest depth more hmore
    have hfound : ((rereadItems? depth (item :: rest)).map itemValues) =
        ((reread? depth item).map toValue).bind fun value =>
          ((rereadItems? depth rest).map itemValues).map (value :: ·) := by
      rw [rereadItems?]
      cases reread? depth item <;> cases rereadItems? depth rest <;> rfl
    rw [List.mapM_cons, hfound]
    exact hitem.bind fun value _ => hrest.map (value :: ·)

theorem settles_entryNodes? : (entries : List (String × Tree)) → ∀ depth keys seen,
    seen.map Prod.fst = keys.map .string → ∀ nodes ∈ entryNodes? entries,
    Value.Settles (Value.entriesOf (Value.ofNodeWithin sharing depth false)
        (Value.ofNodeWithin sharing depth false) seen nodes)
      ((rereadEntries? depth keys entries).map fun entries => seen.reverse ++ entryValues entries)
  | [] => by
    rintro depth keys seen hseen nodes ⟨⟩
    rw [rereadEntries?, Option.map_some, entryValues, List.append_nil]
    exact Value.settles_entriesOf_nil _ _ seen
  | (key, value) :: rest => by
    intro depth keys seen hseen nodes h
    obtain ⟨k, v, more, hkey, hvalue, hmore, rfl⟩ := entryNodes?_cons_eq_some h
    have hread := settles_scalarNode? (scalarNode?_of_keyNode? hkey).2 sharing depth
    rw [map_rereadEntries? hseen]
    refine Value.settles_entriesOf_cons hread (settles_toNode? value depth v hvalue) fun k b => ?_
    exact settles_entryNodes? rest depth (k :: keys) ((.string k, b) :: seen)
      (by rw [List.map_cons, List.map_cons, hseen]) more hmore
end

/-! ### Trees that are read back -/

mutual
/-- No mapping that is read back holds a key twice. -/
theorem valid_of_reread? : (tree : Tree) → ∀ depth read, reread? depth tree = some read →
    read.Valid
  | .scalar text => by
    intro depth read h
    rw [reread?] at h
    obtain ⟨_, -, rfl⟩ := Option.map_eq_some_iff.mp h
    trivial
  | .sequence items => by
    intro depth read h
    cases depth with
    | zero => cases h
    | succ depth =>
      rw [reread?] at h
      obtain ⟨_, hitems, rfl⟩ := Option.map_eq_some_iff.mp h
      exact valid_of_rereadItems? items depth _ hitems
  | .mapping entries => by
    intro depth read h
    cases depth with
    | zero => cases h
    | succ depth =>
      rw [reread?] at h
      obtain ⟨_, hentries, rfl⟩ := Option.map_eq_some_iff.mp h
      obtain ⟨hnodup, -, hvalid⟩ := valid_of_rereadEntries? entries depth [] _ hentries
      exact ⟨hnodup, hvalid⟩

theorem valid_of_rereadItems? : (items : List Tree) → ∀ depth read,
    rereadItems? depth items = some read → ValidItems read
  | [] => by
    rintro depth read ⟨⟩
    trivial
  | item :: rest => by
    intro depth read h
    obtain ⟨t, ts, ht, hts, rfl⟩ := rereadItems?_cons_eq_some_iff.mp h
    exact ⟨valid_of_reread? item depth t ht, valid_of_rereadItems? rest depth ts hts⟩

theorem valid_of_rereadEntries? : (entries : List (String × Tree)) → ∀ depth keys read,
    rereadEntries? depth keys entries = some read →
      Entries.NodupKeys read ∧ (∀ key ∈ Entries.keys read, key ∉ keys) ∧ ValidEntries read
  | [] => by
    rintro depth keys read ⟨⟩
    exact ⟨List.nodup_nil, by simp [Entries.keys], trivial⟩
  | (key, value) :: rest => by
    intro depth keys read h
    obtain ⟨k, t, ts, -, hnew, ht, hts, rfl⟩ := rereadEntries?_cons_eq_some_iff.mp h
    obtain ⟨hnodup, hkeys, hvalid⟩ := valid_of_rereadEntries? rest depth (k :: keys) ts hts
    refine ⟨?_, ?_, valid_of_reread? value depth t ht, hvalid⟩
    · exact List.nodup_cons.mpr ⟨fun hmem => hkeys k hmem (by simp), hnodup⟩
    · refine List.forall_mem_cons.mpr ⟨hnew, fun other hother hmem => ?_⟩
      exact hkeys other hother (List.mem_cons_of_mem _ hmem)
end

/-- **What a document with the tokens of a tree is read as.** -/
theorem toOption_ofYaml {text : String} {tree : Tree} (h : tokens text = tree.nodeTokens) :
    (ofYaml text).toOption = tree.toNode?.bind fun _ => reread? Value.maxDepth tree := by
  have hnode := toOption_ofTokens? tree
  rw [← h] at hnode
  have hread : ofYaml text = ((tokens text >>= Node.ofTokens?) >>= fun node? =>
      node?.elim (pure (.scalar "null")) fun node =>
        Value.ofNode node >>= fun value => pure value.toTree) := by
    rw [bind_assoc, ofYaml]
    congr 1
    funext tokens
    congr 1
    funext node?
    cases node? <;> rfl
  rw [hread, toOption_bind, hnode]
  cases hnode : tree.toNode? with
  | none => rfl
  | some node =>
    have hvalue := Value.settles_ofNode fun sharing =>
      settles_toNode? sharing tree Value.maxDepth node hnode
    rw [Option.map_some, Option.bind_some, Option.bind_some, Option.elim_some, toOption_bind,
      hvalue]
    cases hreread : reread? Value.maxDepth tree with
    | none => rfl
    | some read =>
      have hvalid := toTree_toValue read (valid_of_reread? tree _ read hreread)
      simp [hvalid, Except.toOption, pure, Except.pure]

end Tree

end ConfigTree
