import ConfigTree.Yaml.Node.Parser

/-! # Reading nodes from their tokens

A node without anchors, tags and aliases (`Node.Bare`) is determined by its structure, and so are
its tokens in block style, `Node.blockTokens`.  The parser reads the node back from them:
`ofTokens?_blockTokens`.
-/
namespace ConfigTree.Yaml

namespace Node

mutual
/-- Has the node neither properties nor aliases in it? -/
def Bare : Node → Prop
  | .alias _ => False
  | .scalar properties _ _ => properties = ⟨none, none⟩
  | .sequence properties items => properties = ⟨none, none⟩ ∧ BareItems items
  | .mapping properties entries => properties = ⟨none, none⟩ ∧ BareEntries entries

/-- Are all the nodes bare? -/
def BareItems : List Node → Prop
  | [] => True
  | node :: rest => Bare node ∧ BareItems rest

/-- Are all keys and values bare? -/
def BareEntries : List (Node × Node) → Prop
  | [] => True
  | (key, value) :: rest => Bare key ∧ Bare value ∧ BareEntries rest
end

mutual
/-- The tokens of a bare node, its collections in block style unless they are empty. -/
def blockTokens : Node → List Token
  | .alias _ => []
  | .scalar _ plain text => [.scalar plain text]
  | .sequence _ items =>
    if items.isEmpty then [.flowSequenceStart, .flowSequenceEnd]
    else .blockSequenceStart :: (itemTokens items ++ [.blockEnd])
  | .mapping _ entries =>
    if entries.isEmpty then [.flowMappingStart, .flowMappingEnd]
    else .blockMappingStart :: (entryTokens entries ++ [.blockEnd])

/-- The tokens of the items of a sequence. -/
def itemTokens : List Node → List Token
  | [] => []
  | node :: rest => .blockEntry :: (blockTokens node ++ itemTokens rest)

/-- The tokens of the entries of a mapping. -/
def entryTokens : List (Node × Node) → List Token
  | [] => []
  | (key, value) :: rest =>
    .key :: (blockTokens key ++ .value :: (blockTokens value ++ entryTokens rest))
end

/-- Does a bare node begin with the token? -/
def startsWith : Token → Bool
  | .scalar .. | .blockSequenceStart | .blockMappingStart | .flowSequenceStart
  | .flowMappingStart => true
  | _ => false

theorem Bare.starts {node : Node} (h : node.Bare) :
    ∃ token more, node.blockTokens = token :: more ∧ startsWith token = true := by
  cases node with
  | «alias» => exact h.elim
  | scalar => exact ⟨_, _, rfl, rfl⟩
  | sequence _ items => cases items <;> exact ⟨_, _, rfl, rfl⟩
  | mapping _ entries => cases entries <;> exact ⟨_, _, rfl, rfl⟩

end Node

namespace Read

variable {handles : TagHandles} {indentless : Bool} {fuel : Nat} {rest : List Token}
  {anchors : Entries String Nat}

/-! ### Steps of the parser -/

theorem node_scalar (plain : Bool) (text : String) :
    (node handles true indentless (fuel + 1)).run ⟨.scalar plain text :: rest, anchors⟩ =
      .ok (.scalar ⟨none, none⟩ plain text, ⟨rest, anchors⟩) := rfl

theorem node_emptySequence :
    (node handles true indentless (fuel + 2)).run
      ⟨.flowSequenceStart :: .flowSequenceEnd :: rest, anchors⟩ =
        .ok (.sequence ⟨none, none⟩ [], ⟨rest, anchors⟩) := rfl

theorem node_emptyMapping :
    (node handles true indentless (fuel + 2)).run
      ⟨.flowMappingStart :: .flowMappingEnd :: rest, anchors⟩ =
        .ok (.mapping ⟨none, none⟩ [], ⟨rest, anchors⟩) := rfl

theorem node_sequence :
    (node handles true indentless (fuel + 1)).run ⟨.blockSequenceStart :: rest, anchors⟩ =
      ((blockItems handles fuel).run ⟨rest, anchors⟩).map fun read =>
        (.sequence ⟨none, none⟩ read.1, read.2) := rfl

theorem node_mapping :
    (node handles true indentless (fuel + 1)).run ⟨.blockMappingStart :: rest, anchors⟩ =
      ((blockEntries handles fuel).run ⟨rest, anchors⟩).map fun read =>
        (.mapping ⟨none, none⟩ read.1, read.2) := rfl

theorem blockItems_end :
    (blockItems handles (fuel + 1)).run ⟨.blockEnd :: rest, anchors⟩ = .ok ([], ⟨rest, anchors⟩) :=
  rfl

theorem blockItems_entry :
    (blockItems handles (fuel + 1)).run ⟨.blockEntry :: rest, anchors⟩ = (do
      let (item, reading) ←
        (orEmpty [.blockEntry, .blockEnd] (node handles true false fuel)).run ⟨rest, anchors⟩
      let (items, reading) ← (blockItems handles fuel).run reading
      return (item :: items, reading)) := rfl

theorem blockEntries_end :
    (blockEntries handles (fuel + 1)).run ⟨.blockEnd :: rest, anchors⟩ =
      .ok ([], ⟨rest, anchors⟩) := rfl

theorem blockEntries_key {key : Node} {more : List Token}
    (h : (orEmpty [.key, .value, .blockEnd] (node handles true true fuel)).run ⟨rest, anchors⟩ =
      .ok (key, ⟨.value :: more, anchors⟩)) :
    (blockEntries handles (fuel + 1)).run ⟨.key :: rest, anchors⟩ = (do
      let (value, reading) ←
        (orEmpty [.key, .value, .blockEnd] (node handles true true fuel)).run ⟨more, anchors⟩
      let (entries, reading) ← (blockEntries handles fuel).run reading
      return ((key, value) :: entries, reading)) := by
  show ((orEmpty [.key, .value, .blockEnd] (node handles true true fuel)).run ⟨rest, anchors⟩ >>=
    fun _ => _) = _
  rw [h]
  rfl

theorem orEmpty_node {ends : List Token} (part : Read Node) {token : Token} {more : List Token}
    (h : token ∉ ends) : (orEmpty ends part).run ⟨token :: more, anchors⟩ =
      part.run ⟨token :: more, anchors⟩ := by
  have hends : (some token).any (ends.contains ·) = false := by simpa using h
  show (if (some token).any (ends.contains ·) then _ else _ : Read Node).run _ = _
  rw [hends]
  rfl

/-! ### Reading back -/

/-- With fuel for its tokens, the node is read from them, whatever comes behind. -/
def Parses (n : Node) : Prop :=
  ∀ {handles : TagHandles} {indentless : Bool} {fuel : Nat} {rest : List Token}
    {anchors : Entries String Nat}, n.blockTokens.length < fuel →
    (node handles true indentless fuel).run ⟨n.blockTokens ++ rest, anchors⟩ =
      .ok (n, ⟨rest, anchors⟩)

/-- With fuel for their tokens, the items are read from them. -/
def ParsesItems (items : List Node) : Prop :=
  ∀ {handles : TagHandles} {fuel : Nat} {rest : List Token} {anchors : Entries String Nat},
    (Node.itemTokens items).length < fuel →
    (blockItems handles fuel).run ⟨Node.itemTokens items ++ .blockEnd :: rest, anchors⟩ =
      .ok (items, ⟨rest, anchors⟩)

/-- With fuel for their tokens, the entries are read from them. -/
def ParsesEntries (entries : List (Node × Node)) : Prop :=
  ∀ {handles : TagHandles} {fuel : Nat} {rest : List Token} {anchors : Entries String Nat},
    (Node.entryTokens entries).length < fuel →
    (blockEntries handles fuel).run ⟨Node.entryTokens entries ++ .blockEnd :: rest, anchors⟩ =
      .ok (entries, ⟨rest, anchors⟩)

/-- A node is read where one may be missing. -/
theorem Parses.orEmpty {n : Node} (h : Parses n) (hbare : n.Bare) {ends : List Token}
    (hends : ∀ token ∈ ends, Node.startsWith token = false)
    (hfuel : n.blockTokens.length < fuel) :
    (orEmpty ends (node handles true indentless fuel)).run ⟨n.blockTokens ++ rest, anchors⟩ =
      .ok (n, ⟨rest, anchors⟩) := by
  have hread : (node handles true indentless fuel).run ⟨n.blockTokens ++ rest, anchors⟩ =
    .ok (n, ⟨rest, anchors⟩) := h hfuel
  obtain ⟨token, more, htokens, hstart⟩ := hbare.starts
  -- Only a token with which no node begins stands for a missing one.
  have hmem : token ∉ ends := by
    intro hmem
    rw [hends token hmem] at hstart
    cases hstart
  rw [htokens] at hread ⊢
  rw [List.cons_append, orEmpty_node _ hmem]
  exact hread

theorem parses_sequence {items : List Node} (h : ParsesItems items) :
    Parses (.sequence ⟨none, none⟩ items) := by
  intro handles indentless fuel rest anchors hfuel
  cases items with
  | nil =>
    obtain _ | _ | fuel := fuel
    · exact absurd hfuel (Nat.not_lt_zero _)
    · exact absurd hfuel (by decide)
    · exact node_emptySequence
  | cons item more =>
    obtain _ | fuel := fuel
    · exact absurd hfuel (Nat.not_lt_zero _)
    have htokens : (Node.sequence ⟨none, none⟩ (item :: more)).blockTokens =
      .blockSequenceStart :: (Node.itemTokens (item :: more) ++ [.blockEnd]) := rfl
    rw [htokens] at hfuel ⊢
    have hitems : (Node.itemTokens (item :: more)).length < fuel := by
      rw [List.length_cons, List.length_append] at hfuel
      omega
    rw [List.cons_append, List.append_assoc, List.singleton_append, node_sequence, h hitems]
    rfl

theorem parses_mapping {entries : List (Node × Node)} (h : ParsesEntries entries) :
    Parses (.mapping ⟨none, none⟩ entries) := by
  intro handles indentless fuel rest anchors hfuel
  cases entries with
  | nil =>
    obtain _ | _ | fuel := fuel
    · exact absurd hfuel (Nat.not_lt_zero _)
    · exact absurd hfuel (by decide)
    · exact node_emptyMapping
  | cons entry more =>
    obtain _ | fuel := fuel
    · exact absurd hfuel (Nat.not_lt_zero _)
    have htokens : (Node.mapping ⟨none, none⟩ (entry :: more)).blockTokens =
      .blockMappingStart :: (Node.entryTokens (entry :: more) ++ [.blockEnd]) := rfl
    rw [htokens] at hfuel ⊢
    have hentries : (Node.entryTokens (entry :: more)).length < fuel := by
      rw [List.length_cons, List.length_append] at hfuel
      omega
    rw [List.cons_append, List.append_assoc, List.singleton_append, node_mapping, h hentries]
    rfl

theorem parsesItems_cons {item : Node} {items : List Node} (hbare : item.Bare) (hitem : Parses item)
    (hitems : ParsesItems items) : ParsesItems (item :: items) := by
  intro handles fuel rest anchors hfuel
  obtain _ | fuel := fuel
  · exact absurd hfuel (Nat.not_lt_zero _)
  rw [Node.itemTokens, List.length_cons, List.length_append] at hfuel
  rw [Node.itemTokens, List.cons_append, List.append_assoc, blockItems_entry,
    hitem.orEmpty hbare (by decide) (by omega)]
  show (((blockItems handles fuel).run _) >>= _) = _
  rw [hitems (by omega)]
  rfl

theorem parsesEntries_cons {key value : Node} {entries : List (Node × Node)} (hkey : key.Bare)
    (hvalue : value.Bare) (hkeyread : Parses key) (hvalueread : Parses value)
    (hentries : ParsesEntries entries) : ParsesEntries ((key, value) :: entries) := by
  intro handles fuel rest anchors hfuel
  obtain _ | fuel := fuel
  · exact absurd hfuel (Nat.not_lt_zero _)
  rw [Node.entryTokens, List.length_cons, List.length_append, List.length_cons,
    List.length_append] at hfuel
  rw [Node.entryTokens, List.cons_append, List.append_assoc, List.cons_append, List.append_assoc,
    blockEntries_key (hkeyread.orEmpty hkey (by decide) (by omega)),
    hvalueread.orEmpty hvalue (by decide) (by omega)]
  show (((blockEntries handles fuel).run _) >>= _) = _
  rw [hentries (by omega)]
  rfl

mutual
/-- **A bare node is read back from its tokens.** -/
theorem parses : (n : Node) → n.Bare → Parses n
  | .alias _ => fun h => h.elim
  | .scalar _ plain text => by
    rintro rfl handles indentless fuel rest anchors hfuel
    obtain _ | fuel := fuel
    · exact absurd hfuel (Nat.not_lt_zero _)
    · exact node_scalar plain text
  | .sequence _ items => by
    rintro ⟨rfl, hitems⟩
    exact parses_sequence (parses_items items hitems)
  | .mapping _ entries => by
    rintro ⟨rfl, hentries⟩
    exact parses_mapping (parses_entries entries hentries)

theorem parses_items : (items : List Node) → Node.BareItems items → ParsesItems items
  | [] => by
    intro _ handles fuel rest anchors hfuel
    obtain _ | fuel := fuel
    · exact absurd hfuel (Nat.not_lt_zero _)
    · exact blockItems_end
  | item :: rest => fun h => parsesItems_cons h.1 (parses item h.1) (parses_items rest h.2)

theorem parses_entries : (entries : List (Node × Node)) → Node.BareEntries entries →
    ParsesEntries entries
  | [] => by
    intro _ handles fuel rest anchors hfuel
    obtain _ | fuel := fuel
    · exact absurd hfuel (Nat.not_lt_zero _)
    · exact blockEntries_end
  | (key, value) :: rest => fun h =>
    parsesEntries_cons h.1 h.2.1 (parses key h.1) (parses value h.2.1) (parses_entries rest h.2.2)
end

end Read

/-- **The document of a bare node has that node.** -/
theorem Node.ofTokens?_blockTokens {n : Node} (h : n.Bare) :
    Node.ofTokens? n.blockTokens = .ok (some n) := by
  have hread : (Read.node coreHandles true false (4 * n.blockTokens.length + 4)).run
      ⟨n.blockTokens ++ [], []⟩ = .ok (n, ⟨[], []⟩) := Read.parses n h (by omega)
  obtain ⟨token, more, htokens, hstart⟩ := h.starts
  rw [List.append_nil] at hread
  rw [htokens] at hread ⊢
  -- A node begins neither with a directive nor with a document mark.
  have hdirectives : Directives.read ⟨false, [], false⟩ (token :: more) =
      .ok (⟨false, [], false⟩, token :: more) := by
    cases token <;> first | rfl | cases hstart
  have hmarks : token ≠ .documentStart ∧ token ≠ .documentEnd := by
    constructor <;> rintro rfl <;> cases hstart
  have hcontent : readContent [] (token :: more) = .ok (n, []) := by
    have hcontains : [Token.documentStart, .documentEnd].contains token = false := by
      simpa using hmarks
    simp only [readContent, hcontains, Bool.false_eq_true, if_false, List.nil_append, hread]
    rfl
  simp [Node.ofTokens?, hdirectives, hmarks, hcontent, bind, Except.bind, pure, Except.pure]

end ConfigTree.Yaml
