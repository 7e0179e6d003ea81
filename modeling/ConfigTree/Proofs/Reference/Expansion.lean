import ConfigTree.Proofs.Reference.Progress
import ConfigTree.Proofs.Reference.Replacement
import Mathlib.Data.List.Forall2

/-! # Full expansion

For trees with plain keys and braced references only, resolving is full recursive expansion.  Which
leaf mentions which is read off the source texts (`Tree.Mentions`), and so is what a text expands to
(`Expands`); neither looks at passes.  `resolve_braced` says that a tree can be resolved exactly if
no leaf mentions itself by way of others, that more passes than leaves are always enough, that the
result is the source with every leaf expanded, and that a cycle defeats every cap.

A leaf at the root has the empty name, and nothing can refer to it: `${}` is no reference
(`resolve_emptyName`).
-/
namespace ConfigTree
open Relation

/-- A braced reference to the name. -/
def bracedReference (name : String) : List Char := '$' :: '{' :: (name.toList ++ ['}'])

/-- What a text becomes when every reference in it, and in the texts it stands for, is replaced. -/
inductive Expands (leaves : List (String × String)) : List Char → List Char → Prop where
  | nil : Expands leaves [] []
  | plain {c : Char} {rest out : List Char} :
      c ≠ '$' → Expands leaves rest out → Expands leaves (c :: rest) (c :: out)
  | reference {name text : String} {rest middle out : List Char} :
      (name, text) ∈ leaves → Expands leaves text.toList middle → Expands leaves rest out →
      Expands leaves (bracedReference name ++ rest) (middle ++ out)

/-- The text of a leaf mentions another leaf. -/
def Tree.Mentions (tree : Tree) (name other : String) : Prop :=
  ∃ text, (name, text) ∈ tree.leaves ∧ other ∈ tree.names ∧
    bracedReference other <:+: text.toList

/-- A key that leaves no doubt where it ends: not empty, and without dots, dollar signs or
braces. -/
def PlainKey (key : String) : Prop :=
  IsSegment key ∧ '$' ∉ key.toList ∧ BraceFree key

instance (key : String) : Decidable (PlainKey key) :=
  inferInstanceAs (Decidable ((key ≠ "" ∧ '.' ∉ key.toList) ∧ '$' ∉ key.toList ∧
    '{' ∉ key.toList ∧ '}' ∉ key.toList))

/-- The tree with empty texts: its keys, lengths and order. -/
def Tree.shape (tree : Tree) : Tree := tree.mapLeaves fun _ _ => ""

theorem Tree.shape_mapLeaves (tree : Tree) (f : String → String → String) :
    (tree.mapLeaves f).shape = tree.shape :=
  mapLeaves_mapLeaves f _ tree

/-! ### Braced references in a text -/

/-- An infix cannot start where its first character is missing. -/
theorem infix_append_iff {α : Type} {a : α} {pattern front back : List α} (h : a ∉ front) :
    a :: pattern <:+: front ++ back ↔ a :: pattern <:+: back := by
  induction front with
  | nil => rfl
  | cons b front ih =>
    obtain ⟨hab, hfront⟩ : a ≠ b ∧ a ∉ front := by simpa using h
    rw [List.cons_append, List.infix_cons_iff, ih hfront]
    refine or_iff_right ?_
    rintro ⟨tail, ht⟩
    exact hab (List.cons.inj ht).1

theorem bracedReference_append (name : String) (rest : List Char) :
    '$' :: '{' :: (name.toList ++ '}' :: rest) = bracedReference name ++ rest := by
  simp [bracedReference]

theorem bracedReference_prefix_iff {name other : String} (hname : BraceFree name)
    (hother : BraceFree other) (rest : List Char) :
    bracedReference other <+: bracedReference name ++ rest ↔ other = name := by
  rw [← bracedReference_append, ← braced_prefix_iff hname hother rest]
  exact List.prefix_cons_inj '$'

/-- In a braced text, the names that are referred to are those whose braced references occur. -/
theorem Braced.mem_namesIn_iff {table : Table}
    (hkeys : ∀ key ∈ Entries.keys table, BraceFree key)
    (hdollar : ∀ key ∈ Entries.keys table, '$' ∉ key.toList) {text : List Char}
    (h : Braced (Entries.keys table) text) {other : String}
    (hother : other ∈ Entries.keys table) :
    other ∈ namesIn table text ↔ bracedReference other <:+: text := by
  induction h with
  | nil =>
    constructor
    · exact fun hm => nomatch hm
    · exact fun hi => by simp [bracedReference] at hi
  | @plain c rest hc _ ih =>
    have hskip : '$' ∉ [c] := by simpa using Ne.symm hc
    rw [namesIn_plain table hc, ih]
    exact (infix_append_iff hskip).symm
  | @reference name rest hname hne _ ih =>
    have hskip : '$' ∉ '{' :: (name.toList ++ ['}']) := by
      simpa using hdollar name hname
    have hlater : bracedReference other <:+: '{' :: (name.toList ++ ['}']) ++ rest ↔
        bracedReference other <:+: rest := infix_append_iff hskip
    rw [namesIn_braced hkeys hname hne, List.mem_cons, ih, bracedReference_append,
      ← bracedReference_prefix_iff (hkeys name hname) (hkeys other hother) rest, ← hlater]
    exact List.infix_cons_iff.symm

/-! ### Expansion -/

theorem Expands.bracedReference_inj {name other : String} (hname : BraceFree name)
    (hother : BraceFree other) {rest rest' : List Char}
    (h : bracedReference name ++ rest = bracedReference other ++ rest') :
    name = other ∧ rest = rest' := by
  have heq : name = other :=
    (bracedReference_prefix_iff hother hname rest').mp ⟨rest, h⟩
  subst heq
  exact ⟨rfl, List.append_cancel_left h⟩

/-- **A text has one expansion.** -/
theorem Expands.unique {leaves : List (String × String)} (hnodup : (leaves.map Prod.fst).Nodup)
    (hfree : ∀ name ∈ leaves.map Prod.fst, BraceFree name) {text out out' : List Char}
    (h : Expands leaves text out) (h' : Expands leaves text out') : out = out' := by
  induction h generalizing out' with
  | nil =>
    cases h' with
    | nil => rfl
  | plain hc _ ih =>
    -- Both derivations must be about one text, so it is named before the second one is split.
    generalize htext : _ :: _ = text at h'
    cases h' with
    | nil => cases htext
    | plain _ hrest =>
      obtain ⟨rfl, rfl⟩ := List.cons.inj htext
      rw [ih hrest]
    | reference _ _ _ => exact absurd (List.cons.inj htext).1 hc
  | @reference name value rest _ _ hmem _ _ ihvalue ihrest =>
    generalize htext : bracedReference name ++ rest = text at h'
    cases h' with
    | nil => cases htext
    | plain hc _ => exact absurd (List.cons.inj htext).1.symm hc
    | @reference name' value' rest' _ _ hmem' hvalue hrest =>
      have hn : name ∈ leaves.map Prod.fst := List.mem_map.mpr ⟨_, hmem, rfl⟩
      have hn' : name' ∈ leaves.map Prod.fst := List.mem_map.mpr ⟨_, hmem', rfl⟩
      obtain ⟨rfl, rfl⟩ := bracedReference_inj (hfree _ hn) (hfree _ hn') htext
      have hsame : value = value' := Entries.eq_of_mem hnodup hmem hmem'
      subst hsame
      rw [ihvalue hvalue, ihrest hrest]

/-- A braced text is expanded by filling in the expansions of the names it refers to. -/
theorem Braced.expands_fill {table : Table}
    (hkeys : ∀ key ∈ Entries.keys table, BraceFree key) (hnodup : Entries.NodupKeys table)
    {text : List Char} (h : Braced (Entries.keys table) text) {texts : String → List Char}
    (htexts : ∀ name ∈ namesIn table text, Expands table (table.textAt name) (texts name)) :
    Expands table text (fill texts (shapes table text)) := by
  induction h with
  | nil => exact .nil
  | @plain c rest hc _ ih =>
    rw [namesIn_plain table hc] at htexts
    rw [shapes, scanFrom_plain table hc]
    exact .plain hc (ih htexts)
  | @reference name rest hname hne _ ih =>
    obtain ⟨value, hmem, hcut⟩ := scanFrom_braced hkeys hname hne
    rw [namesIn_braced hkeys hname hne] at htexts
    have hvalue := htexts name (List.mem_cons_self ..)
    rw [textAt_of_mem hnodup hmem] at hvalue
    rw [shapes, hcut, bracedReference_append]
    exact .reference hmem hvalue (ih fun n hn => htexts n (List.mem_cons_of_mem _ hn))

/-! ### Trees of braced references -/

namespace Tree

theorem forall_mem_names_of_plain {tree : Tree} (hkeys : tree.AllKeys PlainKey) :
    ∀ name ∈ tree.names, ∀ c ∈ name.toList, c ≠ '$' ∧ c ≠ '{' ∧ c ≠ '}' := by
  refine forall_mem_names ?_ ?_ (by decide) hkeys
  · rintro key ⟨_, hdollar, hopen, hclose⟩ c hc
    refine ⟨?_, ?_, ?_⟩
    · rintro rfl
      exact hdollar hc
    · rintro rfl
      exact hopen hc
    · rintro rfl
      exact hclose hc
  · intro c hdigit
    refine ⟨?_, ?_, ?_⟩
    all_goals
      rintro rfl
      exact absurd hdigit (by decide)

theorem nodup_names_of_plain {tree : Tree} (hvalid : tree.Valid)
    (hkeys : tree.AllKeys PlainKey) : tree.names.Nodup :=
  nodup_names (fun _ hkey => hkey.1) hvalid hkeys

theorem flatten_eq_leaves_of_plain {tree : Tree} (hvalid : tree.Valid)
    (hkeys : tree.AllKeys PlainKey) : tree.flatten = tree.leaves :=
  flatten_eq_leaves (nodup_names_of_plain hvalid hkeys)

section BracedReferences
variable {tree : Tree} (hkeys : tree.AllKeys PlainKey) (hbraced : tree.Braced)
include hkeys hbraced

theorem bracedLeaves : tree.BracedLeaves := by
  have hclean := forall_mem_names_of_plain hkeys
  refine .of_braced (fun name hname => ⟨fun h => ?_, fun h => ?_⟩) hbraced
  · exact (hclean name hname _ h).2.1 rfl
  · exact (hclean name hname _ h).2.2 rfl

theorem seamless_iterate_pass (k : Nat) : (Table.pass^[k] tree.flatten).Seamless := by
  rw [← flatten_iterate_pass]
  exact ((bracedLeaves hkeys hbraced).iterate_pass k).seamless.flatten

/-- **The final texts are expansions.** -/
theorem expands_textAt_of_done {n : Nat}
    (hdone : unresolvedNames (Table.pass^[n] tree.flatten) = []) (name : String) :
    Expands tree.flatten (tree.flatten.textAt name)
      ((Table.pass^[n] tree.flatten).textAt name) := by
  have hleaves := bracedLeaves hkeys hbraced
  have hseam := seamless_iterate_pass hkeys hbraced
  have hk := nodupKeys_flatten tree
  have hlast := nodupKeys_iterate_pass hk n
  revert name
  refine forall_of_refers hk (fun k _ => hseam k) hdone (Nat.zero_le n) fun name hothers => ?_
  have hfinal : (Table.pass^[n] tree.flatten).textAt name =
      fill (Table.pass^[n] tree.flatten).textAt
        (shapes tree.flatten (tree.flatten.textAt name)) := by
    calc (Table.pass^[n] tree.flatten).textAt name
        = rewritten (Table.pass^[n] tree.flatten) (tree.flatten.textAt name) :=
          (rewritten_textAt_of_done hk (fun k _ => hseam k) hdone (Nat.zero_le n) name).symm
      _ = _ := by
          rw [rewritten_eq_fill hlast, shapes_congr (Table.keys_iterate_pass tree.flatten n)]
  rw [hfinal]
  exact (hleaves.braced_textAt name).expands_fill hleaves.braceFree_keys hk fun other hother =>
    hothers other ((refers_iff hk).mpr hother)

variable (hvalid : tree.Valid)
include hvalid

/-- The names that the table refers to can be read off the source texts. -/
theorem refers_iff_mentions {name other : String} :
    tree.flatten.Refers name other ↔ tree.Mentions name other := by
  have hleaves := bracedLeaves hkeys hbraced
  have hdollar : ∀ key ∈ Entries.keys tree.flatten, '$' ∉ key.toList := fun key hk hd =>
    (forall_mem_names_of_plain hkeys key (mem_keys_flatten.mp hk) _ hd).1 rfl
  have htext : ∀ text, (name, text) ∈ tree.leaves → other ∈ tree.names →
      (other ∈ referencesIn tree.flatten text ↔ bracedReference other <:+: text.toList) :=
    fun text hl hother => (hleaves.braced _ hl).mem_namesIn_iff hleaves.braceFree_keys hdollar
      (mem_keys_flatten.mpr hother)
  constructor
  · rintro ⟨text, hl, href⟩
    have hother : other ∈ tree.names := mem_keys_flatten.mp (namesIn_subset_keys href)
    have hl' := mem_leaves_of_mem_flatten hl
    exact ⟨text, hl', hother, (htext text hl' hother).mp href⟩
  · rintro ⟨text, hl, hother, hin⟩
    refine ⟨text, ?_, (htext text hl hother).mpr hin⟩
    rw [flatten_eq_leaves_of_plain hvalid hkeys]
    exact hl

theorem transGen_refers_iff {name : String} :
    TransGen tree.flatten.Refers name name ↔ TransGen tree.Mentions name name := by
  have hsame : tree.flatten.Refers = tree.Mentions := by
    funext a b
    exact propext (refers_iff_mentions hkeys hbraced hvalid)
  rw [hsame]

theorem expands_of_resolve {cap : Nat} {result : Tree} (h : tree.resolve cap = .ok result)
    {leaf : String × String} (hl : leaf ∈ tree.leaves) :
    Expands tree.leaves leaf.2.toList (substituteText result.flatten leaf.2).toList := by
  have hseam := seamless_iterate_pass hkeys hbraced
  have hk := nodupKeys_flatten tree
  have hflat := flatten_eq_leaves_of_plain hvalid hkeys
  obtain ⟨n, _, hs, hu, rfl⟩ := resolve_eq_ok_iff.mp h
  rw [hs.1, substituteText_toList]
  rw [flatten_iterate_pass] at hu ⊢
  have hsource : tree.flatten.textAt leaf.1 = leaf.2.toList :=
    textAt_of_mem hk (hflat.symm ▸ hl)
  have hexpands := expands_textAt_of_done hkeys hbraced hu leaf.1
  rw [← rewritten_textAt_of_done hk (fun k _ => hseam k) hu (Nat.zero_le n) leaf.1] at hexpands
  rw [Function.iterate_zero_apply, hsource] at hexpands
  generalize rewritten (Table.pass^[n] tree.flatten) leaf.2.toList = out at hexpands ⊢
  rwa [hflat] at hexpands

/-- A resolved tree has the shape of its source, and leaf by leaf the expansion of the source
text. -/
theorem expanded_of_resolve {cap : Nat} {result : Tree} (h : tree.resolve cap = .ok result) :
    result.shape = tree.shape ∧
    List.Forall₂ (fun source leaf => leaf.1 = source.1 ∧
      ∀ out, Expands tree.leaves source.2.toList out ↔ out = leaf.2.toList)
      tree.leaves result.leaves := by
  have hleaves := bracedLeaves hkeys hbraced
  have hnodup : (tree.leaves.map Prod.fst).Nodup := nodup_names_of_plain hvalid hkeys
  have hresult : result = tree.substitute result.flatten :=
    eq_substitute_of_seamless h fun k _ _ => (hleaves.iterate_pass k).seamless
  have hlist : result.leaves =
      tree.leaves.map fun leaf => (leaf.1, substituteText result.flatten leaf.2) := by
    conv_lhs => rw [hresult]
    exact leaves_mapLeaves ..
  constructor
  · rw [hresult]
    exact shape_mapLeaves _ _
  · rw [hlist, List.forall₂_map_right_iff, List.forall₂_same]
    intro leaf hl
    have hexpands := expands_of_resolve hkeys hbraced hvalid h hl
    refine ⟨rfl, fun out => ⟨fun hout => hout.unique hnodup hleaves.braceFree hexpands, ?_⟩⟩
    rintro rfl
    exact hexpands

end BracedReferences

/-- **Resolving is full expansion.**  A tree with plain keys, in which every dollar sign starts a
braced reference to a leaf that has a name, is resolved under some cap exactly if no leaf mentions
itself by way of others.  Then every cap above the number of leaves is enough; whatever is resolved
has the shape of the source and the expansions of its texts.  A cycle defeats every cap. -/
theorem resolve_braced (tree : Tree) (hvalid : tree.Valid) (hkeys : tree.AllKeys PlainKey)
    (hbraced : tree.Braced) :
    ((∃ cap result, tree.resolve cap = .ok result) ↔
      ∀ name, ¬ TransGen tree.Mentions name name) ∧
    ((∀ name, ¬ TransGen tree.Mentions name name) →
      ∀ cap, tree.leaves.length < cap → ∃ result, tree.resolve cap = .ok result) ∧
    (∀ cap result, tree.resolve cap = .ok result →
      result.shape = tree.shape ∧
      List.Forall₂ (fun source leaf => leaf.1 = source.1 ∧
        ∀ out, Expands tree.leaves source.2.toList out ↔ out = leaf.2.toList)
        tree.leaves result.leaves) ∧
    (∀ name, TransGen tree.Mentions name name →
      ∀ cap, ∃ cause, tree.resolve cap = .error cause) := by
  have hseam := seamless_iterate_pass hkeys hbraced
  have hcycle : ∀ name, TransGen tree.Mentions name name →
      ∀ cap, ∃ cause, tree.resolve cap = .error cause := by
    intro name h cap
    exact resolve_of_cycle hseam ((transGen_refers_iff hkeys hbraced hvalid).mpr h) cap
  have henough : (∀ name, ¬ TransGen tree.Mentions name name) →
      ∀ cap, tree.leaves.length < cap → ∃ result, tree.resolve cap = .ok result := by
    intro hacyclic cap hcap
    rw [← flatten_eq_leaves_of_plain hvalid hkeys] at hcap
    refine resolve_of_acyclic hseam (fun name h => ?_) hcap
    exact hacyclic name ((transGen_refers_iff hkeys hbraced hvalid).mp h)
  refine ⟨⟨?_, ?_⟩, henough, ?_, hcycle⟩
  · rintro ⟨cap, result, h⟩ name hname
    obtain ⟨cause, herror⟩ := hcycle name hname cap
    rw [h] at herror
    cases herror
  · intro hacyclic
    exact ⟨_, henough hacyclic _ (Nat.lt_succ_self _)⟩
  · intro cap result h
    exact expanded_of_resolve hkeys hbraced hvalid h

/-- Mentions of mentions, the last one of an item. -/
def bracedChain : Tree :=
  .mapping [("a", .scalar "$\x7bb\x7d+$\x7bb\x7d"), ("b", .scalar "-$\x7bl.0\x7d"),
    ("l", .sequence [.scalar "1"])]

/-- The longest chain of mentions is `a`, `b`, `l.0`; the chain itself shows that there is no cycle,
as one cap is enough. -/
theorem resolve_braced_chain :
    bracedChain.Valid ∧ bracedChain.AllKeys PlainKey ∧ bracedChain.Braced ∧
    (∀ name, ¬ TransGen bracedChain.Mentions name name) ∧
    (∀ cap, 3 < cap → ∃ result, bracedChain.resolve cap = .ok result) := by
  have hvalid : bracedChain.Valid := by
    unfold bracedChain
    exact ⟨by decide, trivial, trivial, ⟨trivial, trivial⟩, trivial⟩
  have hkeys : bracedChain.AllKeys PlainKey := by
    unfold bracedChain
    exact ⟨by decide, trivial, by decide, trivial, by decide, ⟨trivial, trivial⟩, trivial⟩
  have hbraced : bracedChain.Braced := by decide +kernel
  obtain ⟨hiff, henough, _⟩ := resolve_braced bracedChain hvalid hkeys hbraced
  have hacyclic : ∀ name, ¬ TransGen bracedChain.Mentions name name :=
    hiff.mp ⟨12, .mapping [("a", .scalar "-1+-1"), ("b", .scalar "-1"),
      ("l", .sequence [.scalar "1"])], by decide +kernel⟩
  exact ⟨hvalid, hkeys, hbraced, hacyclic, henough hacyclic⟩

/-- The leaf at the root has the empty name, and its text names it in braces.  But a name that is
referred to is not empty, so there is nothing to resolve. -/
theorem resolve_emptyName :
    ∃ tree : Tree, tree = .scalar "$\x7b\x7d" ∧ tree.Valid ∧ tree.AllKeys PlainKey ∧
      (∀ leaf ∈ tree.leaves, BracedIn tree.names leaf.2.toList) ∧
      TransGen tree.Mentions "" "" ∧ tree.resolve defaultCap = .ok tree := by
  refine ⟨_, rfl, trivial, trivial, ?_, .single ⟨_, List.mem_singleton_self _, ?_, ?_⟩, ?_⟩
  · decide +kernel
  · decide +kernel
  · exact List.infix_refl _
  · decide +kernel

end Tree

end ConfigTree
