import ConfigTree.Proofs.Parameters.History
import ConfigTree.Proofs.Tree.Lens

/-! # Independent assignments commute

Two assignments are independent if both their paths lead to nodes, and neither leads to the node of
the other or into it.  Writing at both then gives one written tree in either order
(`Tree.set?_comm`).  What is kept is resolved from the written tree and from nothing else, so **the
same is kept in either order** (`after_swap`), although on the way there the references of two
different trees are resolved.

Paths are judged by the resolved tree.  They lead to nodes of the written one as well, since
resolving keeps the shape (`Parameters.Reachable.shape_eq`), and the shape alone decides where paths
lead (`Tree.isSome_at?_shape`, `Tree.within_shape`).
-/
namespace ConfigTree

namespace Tree

/-! ### Shapes and paths -/

variable {tree child : Tree} {segment other : Segment} {p q : Path}

theorem child?_shape (tree : Tree) (segment : Segment) :
    tree.shape.child? segment = (tree.child? segment).map shape := by
  cases tree with
  | scalar text => rfl
  | sequence items =>
    have hshape : (Tree.sequence items).shape = .sequence (items.map shape) :=
      mapTexts_sequence _ items
    rw [hshape, child?, child?]
    cases segment.asIndex? <;> simp
  | mapping entries =>
    have hshape : (Tree.mapping entries).shape = .mapping (Entries.mapValues shape entries) :=
      mapTexts_mapping _ entries
    rw [hshape]
    exact Entries.get?_mapValues shape entries segment.asKey

theorem isSome_at?_shape (tree : Tree) (p : Path) :
    (tree.shape.at? p).isSome = (tree.at? p).isSome := by
  induction p generalizing tree with
  | nil => rw [at?_nil, at?_nil, Option.isSome_some, Option.isSome_some]
  | cons segment way ih =>
    rw [at?_cons, at?_cons, child?_shape]
    cases tree.child? segment with
    | none => rfl
    | some child => exact ih child

theorem readsAlike_shape : tree.shape.ReadsAlike segment other ↔ tree.ReadsAlike segment other := by
  cases tree <;> rfl

theorem Within.shape (h : Within tree p q) : Within tree.shape p q := by
  induction h with
  | node => exact .node
  | behind halike hchild _ ih =>
    exact .behind (readsAlike_shape.mpr halike) (by rw [child?_shape, hchild, Option.map_some]) ih

theorem Within.of_shape (h : Within tree.shape p q) : Within tree p q := by
  generalize hshape : tree.shape = blank at h
  induction h generalizing tree with
  | node => exact .node
  | behind halike hchild _ ih =>
    subst hshape
    rw [child?_shape] at hchild
    obtain ⟨child, hchild, hsame⟩ := Option.map_eq_some_iff.mp hchild
    exact .behind (readsAlike_shape.mp halike) hchild (ih hsame)

theorem within_shape : Within tree.shape p q ↔ Within tree p q := ⟨Within.of_shape, Within.shape⟩

/-! ### Two writes -/

theorem exists_set?_of_at? (h : (tree.at? p).isSome) (new : Tree) :
    ∃ result, tree.set? p new = some result :=
  Option.isSome_iff_exists.mp (isSome_set?_iff.mpr (.inl h))

/-- **Writes at two nodes that part can be made in either order.** -/
theorem set?_comm (hparts : Parts tree p q) (hp : (tree.at? p).isSome) (hq : (tree.at? q).isSome)
    {value new first second : Tree} (hfirst : tree.set? p value = some first)
    (hsecond : tree.set? q new = some second) : first.set? q new = second.set? p value := by
  induction hparts generalizing first second with
  | @here tree segment other way away hne =>
    rw [at?_cons] at hp hq
    obtain ⟨child, hchild⟩ := Option.isSome_iff_exists.mp (Option.isSome_of_isSome_bind hp)
    obtain ⟨node, hnode⟩ := Option.isSome_iff_exists.mp (Option.isSome_of_isSome_bind hq)
    rw [set?_of_child? hchild] at hfirst
    rw [set?_of_child? hnode] at hsecond
    obtain ⟨inner, hinner, rfl⟩ := Option.map_eq_some_iff.mp hfirst
    obtain ⟨written, hwritten, rfl⟩ := Option.map_eq_some_iff.mp hsecond
    have hother := (child?_replaceChild_of_ne hne inner).trans hnode
    have hsegment := (child?_replaceChild_of_ne (fun h => hne h.symm) written).trans hchild
    rw [set?_of_child? hother, set?_of_child? hsegment, hwritten, hinner, Option.map_some,
      Option.map_some, replaceChild_comm hne (by rw [hchild]; rfl)]
  | @behind tree child segment other way away halike hchild hparts ih =>
    have hother : tree.child? other = some child := halike.child?_eq ▸ hchild
    rw [at?_cons, hchild, Option.bind_some] at hp
    rw [at?_cons, hother, Option.bind_some] at hq
    rw [set?_of_child? hchild] at hfirst
    rw [set?_of_child? hother] at hsecond
    obtain ⟨inner, hinner, rfl⟩ := Option.map_eq_some_iff.mp hfirst
    obtain ⟨written, hwritten, rfl⟩ := Option.map_eq_some_iff.mp hsecond
    have hsegment : (tree.replaceChild segment inner).child? other = some inner := by
      rw [halike.replaceChild_eq, child?_replaceChild (.inl (by rw [hother]; rfl))]
    have hagain : (tree.replaceChild other written).child? segment = some written := by
      rw [← halike.replaceChild_eq, child?_replaceChild (.inl (by rw [hchild]; rfl))]
    rw [set?_of_child? hsegment, set?_of_child? hagain, ih hp hq hinner hwritten]
    have hsame : (tree.replaceChild segment inner).replaceChild other =
        (tree.replaceChild other written).replaceChild segment := by
      funext last
      rw [halike.replaceChild_eq, replaceChild_replaceChild, ← halike.replaceChild_eq written,
        replaceChild_replaceChild, halike.replaceChild_eq]
    rw [hsame]

end Tree

namespace Parameters

variable {parameters : Parameters}

theorem Reachable.isSome_at? (h : parameters.Reachable) (p : Path) :
    (parameters.at? p).isSome = (parameters.source.at? p).isSome := by
  rw [← Tree.isSome_at?_shape parameters.source, ← h.shape_eq, Tree.isSome_at?_shape]
  rfl

theorem Reachable.within_iff (h : parameters.Reachable) (p q : Path) :
    Tree.Within parameters.data p q ↔ Tree.Within parameters.source p q := by
  rw [← Tree.within_shape, h.shape_eq, Tree.within_shape]

/-! ### Two updates -/

/-- **Independent updates commute.**  If each of two succeeds by itself, then the other one after it
has the same outcome in both orders, be it an error or new parameters. -/
theorem update_comm {p q : Path} {v w : Tree} {first second : Parameters}
    (hparts : Tree.Parts parameters.source p q) (hp : (parameters.source.at? p).isSome)
    (hq : (parameters.source.at? q).isSome) (hfirst : parameters.update p v = .ok first)
    (hsecond : parameters.update q w = .ok second) : first.update q w = second.update p v := by
  obtain ⟨source, hset, hbuilt⟩ := update_eq_ok_iff.mp hfirst
  obtain ⟨other, hother, hagain⟩ := update_eq_ok_iff.mp hsecond
  obtain ⟨-, rfl, hcap⟩ := ofTree_eq_ok_iff.mp hbuilt
  obtain ⟨-, rfl, hsame⟩ := ofTree_eq_ok_iff.mp hagain
  -- the first path leads to a node of the second tree too, so neither of the two writes fails
  have hstill : (second.source.at? p).isSome := by
    rwa [Tree.at?_of_parts hparts.symm hother]
  obtain ⟨result, hresult⟩ := Tree.exists_set?_of_at? hstill v
  rw [update, update, hcap, hsame, Tree.set?_comm hparts hp hq hset hother, hresult]

end Parameters

namespace Session

/-- Two assignments that both succeed are two updates. -/
theorem update_after_of_ok {start : Parameters} {a b : Assignment}
    (h : ∀ outcome ∈ outcomes start [a, b], outcome = .ok ()) :
    ∃ next, start.update a.path a.value = .ok next ∧
      next.update b.path b.value = .ok (after start [a, b]) := by
  rw [outcomes_cons, outcomes_cons] at h
  obtain ⟨hmade, h⟩ := List.forall_mem_cons.mp h
  obtain ⟨_, next, hset, hbuilt, hnext⟩ := run_make_of_ok hmade
  have hafter : afterFirst start a = next := hnext
  rw [hafter] at h
  obtain ⟨_, last, hagain, hrebuilt, hlast⟩ := run_make_of_ok (List.forall_mem_cons.mp h).1
  refine ⟨next, Parameters.update_eq_ok_iff.mpr ⟨_, hset, hbuilt⟩,
    Parameters.update_eq_ok_iff.mpr ⟨_, hagain, ?_⟩⟩
  rw [after_cons, hafter]
  exact hrebuilt.trans (congrArg Except.ok hlast.symm)

/-- **Independent assignments commute.**  Take parameters that have come about in any way, and two
assignments at places that are there, of which neither is at the node of the other or inside it.  If
both succeed in both orders, then the same is kept: the written tree, the resolved one and the order
of the keys in both, whatever references the values hold. -/
theorem after_swap {start : Parameters} (hstart : start.Reachable) {a b : Assignment}
    (ha : (start.at? a.path).isSome) (hb : (start.at? b.path).isSome)
    (hab : ¬ Tree.Within start.data a.path b.path) (hba : ¬ Tree.Within start.data b.path a.path)
    (hforth : ∀ outcome ∈ outcomes start [a, b], outcome = .ok ())
    (hback : ∀ outcome ∈ outcomes start [b, a], outcome = .ok ()) :
    after start [a, b] = after start [b, a] := by
  rw [hstart.isSome_at?] at ha hb
  rw [hstart.within_iff] at hab hba
  have hparts : Tree.Parts start.source a.path b.path :=
    (Tree.parts_or_within hb).resolve_right (not_or.mpr ⟨hab, hba⟩)
  obtain ⟨first, hfirst, hlast⟩ := update_after_of_ok hforth
  obtain ⟨second, hsecond, hagain⟩ := update_after_of_ok hback
  have hsame := Parameters.update_comm hparts ha hb hfirst hsecond
  exact Except.ok.inj (hlast.symm.trans (hsame.trans hagain))

/-- Parameters with a sequence whose second item refers to the first one. -/
def linked : Parameters :=
  ⟨.mapping [("list", .sequence [.scalar "1", .scalar "$list.0"]), ("b", .scalar "2")],
    .mapping [("list", .sequence [.scalar "1", .scalar "1"]), ("b", .scalar "2")], defaultCap⟩

/-- A new first item. -/
def firstItem : Assignment := .dotted "list[0]" (.scalar "$b")

/-- A second item that refers to the first one, with an index that is written as a key. -/
def secondItem : Assignment := .segments [.key "list", .key "01"] (.scalar "$list.0")

/-- Two items are assigned in either order; on the way there the second one is `2` in one of the
orders and `1` in the other. -/
theorem after_swap_linked :
    outcomes linked [firstItem, secondItem] = [.ok (), .ok ()] ∧
    outcomes linked [secondItem, firstItem] = [.ok (), .ok ()] ∧
    after linked [firstItem, secondItem] = after linked [secondItem, firstItem] ∧
    (after linked [secondItem, firstItem]).data =
      .mapping [("list", .sequence [.scalar "2", .scalar "2"]), ("b", .scalar "2")] := by
  have hstart : linked.Reachable :=
    .built (Parameters.ofTree_eq_ok_iff.mpr ⟨by decide +kernel, rfl, rfl⟩)
  have hforth : outcomes linked [firstItem, secondItem] = [.ok (), .ok ()] := by decide +kernel
  have hback : outcomes linked [secondItem, firstItem] = [.ok (), .ok ()] := by decide +kernel
  have hpath : firstItem.path = [.key "list", .index 0] := by decide +kernel
  have hparts : Tree.Parts linked.data firstItem.path secondItem.path :=
    hpath ▸ .behind rfl rfl (.here (by decide))
  have hsame := after_swap hstart (by decide +kernel) (by decide +kernel)
    hparts.not_within hparts.symm.not_within (by simp [hforth]) (by simp [hback])
  exact ⟨hforth, hback, hsame, by decide +kernel⟩

end Session

end ConfigTree
