import ConfigTree.Proofs.Entries
import ConfigTree.Proofs.Tree.Addressing

/-! # Reading and writing at a path

Writing at a path goes down to the parent of the last segment and changes it there, in place
(`Tree.assign`); if the path leads nowhere, nothing has been changed when that is found out.  So the
answer and the tree that is left are those of `Tree.set?` (`run_assign`).

Reading and writing at one path undo and repeat each other, and what is read elsewhere stays what it
was (`assign_laws`).  Where elsewhere is depends on the nodes: a segment is a key to a mapping and
an index to a sequence, so two paths part at the first node that does not read their segments alike
(`Parts`).  Of two paths, if one of them leads to a node, either they part, or one of them leads to
the node of the other or into it (`parts_or_within`).
-/
namespace ConfigTree

namespace Tree

/-! ### Segments as nodes read them -/

/-- The node takes both segments for the same key or for the same index. -/
def ReadsAlike : Tree → Segment → Segment → Prop
  | .mapping _, segment, other => segment.asKey = other.asKey
  | .sequence _, segment, other => segment.asIndex? = other.asIndex?
  | .scalar _, _, _ => True

instance (tree : Tree) (segment other : Segment) : Decidable (tree.ReadsAlike segment other) :=
  match tree with
  | .mapping _ => inferInstanceAs (Decidable (segment.asKey = other.asKey))
  | .sequence _ => inferInstanceAs (Decidable (segment.asIndex? = other.asIndex?))
  | .scalar _ => inferInstanceAs (Decidable True)

variable {tree : Tree} {segment other : Segment}

theorem ReadsAlike.symm (h : tree.ReadsAlike segment other) : tree.ReadsAlike other segment := by
  cases tree with
  | scalar text => trivial
  | sequence items => exact Eq.symm h
  | mapping entries => exact Eq.symm h

theorem ReadsAlike.child?_eq (h : tree.ReadsAlike segment other) :
    tree.child? segment = tree.child? other := by
  cases tree with
  | scalar text => rfl
  | sequence items => exact congrArg (Option.bind · (items[·]?)) h
  | mapping entries => exact congrArg (Entries.get? entries) h

theorem ReadsAlike.replaceChild_eq (h : tree.ReadsAlike segment other) (new : Tree) :
    tree.replaceChild segment new = tree.replaceChild other new := by
  cases tree with
  | scalar text => rfl
  | sequence items =>
    have hindex : segment.asIndex? = other.asIndex? := h
    rw [replaceChild, replaceChild, hindex]
  | mapping entries =>
    have hkey : segment.asKey = other.asKey := h
    rw [replaceChild, replaceChild, hkey]

/-- A node that has one of its children replaced reads segments as before. -/
theorem readsAlike_replaceChild (tree : Tree) (replaced : Segment) (new : Tree) :
    (tree.replaceChild replaced new).ReadsAlike segment other ↔ tree.ReadsAlike segment other := by
  cases tree with
  | scalar text => rfl
  | sequence items =>
    rw [replaceChild]
    cases replaced.asIndex? <;> rfl
  | mapping entries => rfl

/-! ### Children that are replaced -/

/-- The other children stay. -/
theorem child?_replaceChild_of_ne (h : ¬ tree.ReadsAlike segment other) (new : Tree) :
    (tree.replaceChild segment new).child? other = tree.child? other := by
  cases tree with
  | scalar text => exact absurd trivial h
  | sequence items =>
    have hne : segment.asIndex? ≠ other.asIndex? := h
    rw [replaceChild]
    cases hsegment : segment.asIndex? with
    | none => rfl
    | some index =>
      cases hother : other.asIndex? with
      | none => simp [child?, hother]
      | some position =>
        have hindex : index ≠ position := by
          rintro rfl
          exact hne (hsegment.trans hother.symm)
        simp [child?, hother, List.getElem?_set_ne hindex]
  | mapping entries =>
    have hne : segment.asKey ≠ other.asKey := h
    exact (Entries.get?_insert ..).trans (if_neg hne)

/-- A child is replaced by itself. -/
theorem replaceChild_self {child : Tree} (h : tree.child? segment = some child) :
    tree.replaceChild segment child = tree := by
  cases tree with
  | scalar text => rfl
  | sequence items =>
    obtain ⟨index, hindex, hitem⟩ := Option.bind_eq_some_iff.mp h
    obtain ⟨hbound, rfl⟩ := List.getElem?_eq_some_iff.mp hitem
    simp [replaceChild, hindex]
  | mapping entries => exact congrArg Tree.mapping (Entries.insert_eq_self h)

/-- A child is replaced once more. -/
theorem replaceChild_replaceChild (tree : Tree) (segment : Segment) (value new : Tree) :
    (tree.replaceChild segment value).replaceChild segment new = tree.replaceChild segment new := by
  cases tree with
  | scalar text => rfl
  | sequence items =>
    cases hindex : segment.asIndex? with
    | none => simp [replaceChild, hindex]
    | some index => simp [replaceChild, hindex]
  | mapping entries => exact congrArg Tree.mapping (Entries.insert_insert ..)

/-- Two children are replaced in either order. -/
theorem replaceChild_comm (h : ¬ tree.ReadsAlike segment other)
    (hchild : (tree.child? segment).isSome) (value new : Tree) :
    (tree.replaceChild segment value).replaceChild other new =
      (tree.replaceChild other new).replaceChild segment value := by
  cases tree with
  | scalar text => rfl
  | sequence items =>
    have hne : segment.asIndex? ≠ other.asIndex? := h
    cases hsegment : segment.asIndex? with
    | none => simp [child?, hsegment] at hchild
    | some index =>
      cases hother : other.asIndex? with
      | none => simp [replaceChild, hsegment, hother]
      | some position =>
        have hindex : index ≠ position := by
          rintro rfl
          exact hne (hsegment.trans hother.symm)
        simp only [replaceChild, hsegment, hother]
        rw [List.set_comm _ _ hindex]
  | mapping entries =>
    have hne : segment.asKey ≠ other.asKey := h
    obtain ⟨child, hchild⟩ := Option.isSome_iff_exists.mp hchild
    have hmem : segment.asKey ∈ Entries.keys entries :=
      List.mem_map.mpr ⟨_, Entries.mem_of_get? hchild, rfl⟩
    exact congrArg Tree.mapping (Entries.insert_comm hne hmem value new)

/-! ### Two paths -/

/-- The paths part at a node that both lead to: it does not read their next segments alike. -/
inductive Parts : Tree → Path → Path → Prop where
  | here {tree : Tree} {segment other : Segment} {way away : Path} :
      ¬ tree.ReadsAlike segment other → Parts tree (segment :: way) (other :: away)
  | behind {tree child : Tree} {segment other : Segment} {way away : Path} :
      tree.ReadsAlike segment other → tree.child? segment = some child → Parts child way away →
      Parts tree (segment :: way) (other :: away)

/-- The second path leads to the node of the first one, or on from there. -/
inductive Within : Tree → Path → Path → Prop where
  | node {tree : Tree} {away : Path} : Within tree [] away
  | behind {tree child : Tree} {segment other : Segment} {way away : Path} :
      tree.ReadsAlike segment other → tree.child? segment = some child → Within child way away →
      Within tree (segment :: way) (other :: away)

/-- **Two paths part, or one of them leads to the node of the other or into it.** -/
theorem parts_or_within {p q : Path} (h : (tree.at? q).isSome) :
    Parts tree p q ∨ Within tree p q ∨ Within tree q p := by
  induction q generalizing tree p with
  | nil => exact .inr (.inr .node)
  | cons other away ih =>
    cases p with
    | nil => exact .inr (.inl .node)
    | cons segment way =>
      by_cases halike : tree.ReadsAlike segment other
      · rw [at?_cons] at h
        obtain ⟨child, hchild⟩ : ∃ child, tree.child? other = some child := by
          cases hother : tree.child? other with
          | none => simp [hother] at h
          | some child => exact ⟨child, rfl⟩
        have hsegment : tree.child? segment = some child := halike.child?_eq.trans hchild
        rw [hchild, Option.bind_some] at h
        rcases ih (p := way) h with hparts | hwithin | hwithin
        · exact .inl (.behind halike hsegment hparts)
        · exact .inr (.inl (.behind halike hsegment hwithin))
        · exact .inr (.inr (.behind halike.symm hchild hwithin))
      · exact .inl (.here halike)

theorem Parts.symm {p q : Path} (h : Parts tree p q) : Parts tree q p := by
  induction h with
  | here hne => exact .here fun h => hne h.symm
  | behind halike hchild _ ih => exact .behind halike.symm (halike.child?_eq ▸ hchild) ih

/-- No path leads on to a node that it parts from. -/
theorem Parts.not_within {p q : Path} (h : Parts tree p q) : ¬ Within tree p q := by
  intro hwithin
  induction hwithin with
  | node => cases h
  | behind halike hchild _ ih =>
    cases h with
    | here hne => exact hne halike
    | behind _ hsame hparts =>
      obtain rfl := Option.some.inj (hchild.symm.trans hsame)
      exact ih hparts

/-! ### One write -/

@[simp] theorem set?_nil (tree new : Tree) : tree.set? [] new = some new := by
  cases tree <;> rfl

/-- Writing behind a segment puts another child in the place of its child, or a new child at the end
of a mapping. -/
theorem set?_cons_eq_some_iff {way : Path} {new result : Tree} :
    tree.set? (segment :: way) new = some result ↔
      (∃ child inner, tree.child? segment = some child ∧ child.set? way new = some inner ∧
        result = tree.replaceChild segment inner) ∨
      (tree.child? segment = none ∧ way = [] ∧ tree.kind = .mapping ∧
        result = tree.replaceChild segment new) := by
  cases hchild : tree.child? segment with
  | some child =>
    rw [set?_of_child? hchild, Option.map_eq_some_iff]
    simp [eq_comm]
  | none =>
    rw [set?_of_child?_eq_none hchild]
    by_cases hnew : way = [] ∧ tree.kind = .mapping
    · simp [hnew, eq_comm]
    · rw [if_neg hnew]
      simp only [reduceCtorEq, false_and, exists_false, false_or, true_and, false_iff]
      rintro ⟨hway, hkind, -⟩
      exact hnew ⟨hway, hkind⟩

/-- **What is read is written back without a change.** -/
theorem set?_of_at? {p : Path} {node : Tree} (h : tree.at? p = some node) :
    tree.set? p node = some tree := by
  induction p generalizing tree with
  | nil =>
    rw [at?_nil] at h
    rw [set?_nil, Option.some.inj h]
  | cons segment way ih =>
    rw [at?_cons] at h
    obtain ⟨child, hchild, hnode⟩ := Option.bind_eq_some_iff.mp h
    rw [set?_of_child? hchild, ih hnode, Option.map_some, replaceChild_self hchild]

/-- **Of two writes at one path the second counts.** -/
theorem set?_of_set? {p : Path} {value result : Tree} (h : tree.set? p value = some result)
    (new : Tree) : result.set? p new = tree.set? p new := by
  induction p generalizing tree result with
  | nil => rw [set?_nil, set?_nil]
  | cons segment way ih =>
    rcases set?_cons_eq_some_iff.mp h with
      ⟨child, inner, hchild, hinner, rfl⟩ | ⟨hnone, rfl, hkind, rfl⟩
    · have hreplaced : (tree.replaceChild segment inner).child? segment = some inner :=
        child?_replaceChild (.inl (by rw [hchild]; rfl)) inner
      have hagain : (tree.replaceChild segment inner).replaceChild segment =
          tree.replaceChild segment := funext (replaceChild_replaceChild tree segment inner)
      rw [set?_of_child? hreplaced, set?_of_child? hchild, ih hinner, hagain]
    · have hreplaced : (tree.replaceChild segment value).child? segment = some value :=
        child?_replaceChild (.inr hkind) value
      rw [set?_of_child? hreplaced, set?_of_child?_eq_none hnone, if_pos ⟨rfl, hkind⟩, set?_nil,
        Option.map_some, replaceChild_replaceChild]

/-- **A write is not read at a path that parts from its own.** -/
theorem at?_of_parts {p q : Path} (hparts : Parts tree p q) {value result : Tree}
    (h : tree.set? p value = some result) : result.at? q = tree.at? q := by
  induction hparts generalizing result with
  | here hne =>
    rw [at?_cons, at?_cons]
    rcases set?_cons_eq_some_iff.mp h with ⟨_, _, _, _, rfl⟩ | ⟨_, _, _, rfl⟩ <;>
      rw [child?_replaceChild_of_ne hne]
  | @behind tree child segment other way away halike hchild _ ih =>
    rw [set?_of_child? hchild] at h
    obtain ⟨inner, hinner, rfl⟩ := Option.map_eq_some_iff.mp h
    rw [at?_cons, at?_cons, ← halike.child?_eq,
      ← ((readsAlike_replaceChild tree segment inner).mpr halike).child?_eq,
      child?_replaceChild (.inl (by rw [hchild]; rfl)), hchild]
    exact ih hinner

/-! ### Keys and places -/

/-- The keys of a mapping, in order. -/
def keys : Tree → List String
  | .mapping entries => Entries.keys entries
  | _ => []

/-- The second node is of the same kind as the first one and has its places and its keys in the same
order, and at most one more key behind them. -/
structure Extends (node extended : Tree) : Prop where
  kind_eq : extended.kind = node.kind
  length_eq : extended.items?.map List.length = node.items?.map List.length
  exists_keys : ∃ added, extended.keys = node.keys ++ added ∧ added.length ≤ 1

theorem Extends.refl (node : Tree) : node.Extends node := ⟨rfl, rfl, [], by simp, by simp⟩

theorem keys_replaceChild (h : (tree.child? segment).isSome) (new : Tree) :
    (tree.replaceChild segment new).keys = tree.keys := by
  cases tree with
  | scalar text => rfl
  | sequence items =>
    rw [replaceChild]
    cases segment.asIndex? <;> rfl
  | mapping entries =>
    obtain ⟨child, hchild⟩ := Option.isSome_iff_exists.mp h
    have hmem : segment.asKey ∈ Entries.keys entries :=
      List.mem_map.mpr ⟨_, Entries.mem_of_get? hchild, rfl⟩
    exact (Entries.keys_insert ..).trans (if_pos hmem)

theorem extends_replaceChild (tree : Tree) (segment : Segment) (new : Tree) :
    tree.Extends (tree.replaceChild segment new) := by
  cases tree with
  | scalar text => exact .refl _
  | sequence items =>
    rw [replaceChild]
    cases segment.asIndex? with
    | none => exact .refl _
    | some index => exact ⟨rfl, by simp [items?], [], rfl, by simp⟩
  | mapping entries =>
    refine ⟨rfl, rfl, ?_⟩
    by_cases hmem : segment.asKey ∈ Entries.keys entries
    · exact ⟨[], by simp [keys, replaceChild, Entries.keys_insert, hmem], by simp⟩
    · exact ⟨[segment.asKey], by simp [keys, replaceChild, Entries.keys_insert, hmem], by simp⟩

variable {p q : Path} {value result node : Tree}

/-- A node above the one that is written keeps its keys and places. -/
theorem exists_extends_of_within (hwithin : Within tree q p) (hnot : ¬ Within tree p q)
    (hnode : tree.at? q = some node) (h : tree.set? p value = some result) :
    ∃ kept, result.at? q = some kept ∧ node.Extends kept ∧
      ((tree.at? p).isSome → kept.keys = node.keys) := by
  induction hwithin generalizing result with
  | @node tree p =>
    rw [at?_nil] at hnode
    obtain rfl := Option.some.inj hnode
    refine ⟨result, at?_nil result, ?_⟩
    cases p with
    | nil => exact absurd .node hnot
    | cons segment way =>
      obtain ⟨inner, rfl⟩ : ∃ inner, result = tree.replaceChild segment inner := by
        rcases set?_cons_eq_some_iff.mp h with ⟨_, inner, _, _, hresult⟩ | ⟨_, _, _, hresult⟩
        · exact ⟨inner, hresult⟩
        · exact ⟨value, hresult⟩
      refine ⟨extends_replaceChild tree segment inner, fun hat => keys_replaceChild ?_ inner⟩
      rw [at?_cons] at hat
      exact Option.isSome_of_isSome_bind hat
  | @behind tree child segment other way away halike hchild _ ih =>
    have hother : tree.child? other = some child := halike.child?_eq ▸ hchild
    rw [set?_of_child? hother] at h
    obtain ⟨inner, hinner, rfl⟩ := Option.map_eq_some_iff.mp h
    have hreplaced : (tree.replaceChild other inner).child? segment = some inner := by
      rw [((readsAlike_replaceChild tree other inner).mpr halike).child?_eq,
        child?_replaceChild (.inl (by rw [hother]; rfl))]
    rw [at?_cons, hchild, Option.bind_some] at hnode
    rw [at?_cons, at?_cons, hreplaced, hother]
    exact ih (fun hin => hnot (.behind halike.symm hother hin)) hnode hinner

/-- **Every node that is not written over stays where it is and keeps its keys and places.** -/
theorem exists_extends (hnode : tree.at? q = some node) (hnot : ¬ Within tree p q)
    (h : tree.set? p value = some result) :
    ∃ kept, result.at? q = some kept ∧ node.Extends kept ∧
      ((tree.at? p).isSome → kept.keys = node.keys) := by
  rcases parts_or_within (p := p) (by rw [hnode]; rfl) with hparts | hwithin | hwithin
  · exact ⟨node, (at?_of_parts hparts h).trans hnode, .refl node, fun _ => rfl⟩
  · exact absurd hwithin hnot
  · exact exists_extends_of_within hwithin hnot hnode h

/-! ### Writing in place -/

/-- Changes a child in place; answers what the change answers, or no if there is no such child. -/
def changeChild (segment : Segment) (change : StateM Tree Bool) : StateM Tree Bool := do
  match (← get).child? segment with
  | none => return false
  | some child =>
    let (done, changed) := change.run child
    modify (·.replaceChild segment changed)
    return done

/-- Puts a node behind a segment, which in a mapping may be new. -/
def putChild (segment : Segment) (new : Tree) : StateM Tree Bool := do
  match ← get with
  | .mapping entries =>
    set (Tree.mapping (Entries.insert entries segment.asKey new))
    return true
  | .sequence items =>
    match segment.asIndex? with
    | none => return false
    | some position =>
      if position < items.length then
        set (Tree.sequence (items.set position new))
        return true
      else return false
  | .scalar _ => return false

/-- Writes at a path in place, and answers whether there was anything to write at. -/
def assign : Path → Tree → StateM Tree Bool
  | [], new => do
    set new
    return true
  | [segment], new => putChild segment new
  | segment :: rest, new => changeChild segment (assign rest new)

/-- What is read from the state is the tree itself, as nothing has been changed yet. -/
theorem run_get_bind {α : Type} (f : Tree → StateM Tree α) (tree : Tree) :
    ((get : StateM Tree Tree) >>= f).run tree = (f tree).run tree := rfl

theorem run_putChild (segment : Segment) (new tree : Tree) :
    (putChild segment new).run tree =
      ((tree.setChild? segment new).isSome, (tree.setChild? segment new).getD tree) := by
  rw [putChild, run_get_bind]
  cases tree with
  | scalar text => rfl
  | mapping entries => rfl
  | sequence items =>
    cases hindex : segment.asIndex? with
    | none =>
      simp only [setChild?, child?, hindex]
      rfl
    | some position =>
      by_cases hbound : position < items.length
      · have hchild : (items[position]?).isSome := by simpa using hbound
        simp only [setChild?, replaceChild, child?, hindex, Option.bind_some, hchild, hbound,
          if_true]
        rfl
      · have hchild : items[position]? = none := by simpa using hbound
        simp only [setChild?, child?, hindex, Option.bind_some, hchild, hbound, if_false]
        rfl

theorem run_changeChild_of_none (h : tree.child? segment = none) (change : StateM Tree Bool) :
    (changeChild segment change).run tree = (false, tree) := by
  rw [changeChild, run_get_bind, h]
  rfl

theorem run_changeChild_of_some {child : Tree} (h : tree.child? segment = some child)
    (change : StateM Tree Bool) :
    (changeChild segment change).run tree =
      ((change.run child).1, tree.replaceChild segment (change.run child).2) := by
  rw [changeChild, run_get_bind, h]
  rfl

/-- **Writing in place leaves the tree that writing gives**, and the old one if it gives none. -/
theorem run_assign (p : Path) (new tree : Tree) :
    (assign p new).run tree = ((tree.set? p new).isSome, (tree.set? p new).getD tree) := by
  induction p generalizing tree with
  | nil =>
    rw [set?_nil]
    rfl
  | cons segment way ih =>
    cases way with
    | nil =>
      rw [assign, run_putChild]
      cases tree <;> rfl
    | cons next rest =>
      rw [assign]
      · cases hchild : tree.child? segment with
        | none =>
          rw [run_changeChild_of_none hchild, set?_of_child?_eq_none hchild, if_neg (by simp)]
          rfl
        | some child =>
          rw [run_changeChild_of_some hchild, set?_of_child? hchild, Option.isSome_map, ih]
          cases child.set? (next :: rest) new with
          | none => exact congrArg (Prod.mk false) (replaceChild_self hchild)
          | some inner => rfl
      · simp

theorem run_assign_of_some {new : Tree} (h : tree.set? p new = some result) :
    (assign p new).run tree = (true, result) := by
  rw [run_assign, h]
  rfl

theorem run_assign_of_none {new : Tree} (h : tree.set? p new = none) :
    (assign p new).run tree = (false, tree) := by
  rw [run_assign, h]
  rfl

/-- **Reading and writing at paths are a lens.**  After a write that succeeds the value is read at
its path, a second write there leaves the tree that it leaves on its own, every path that parts from
that of the write leads where it led, and all nodes but the one that is written over, and those in
it, keep their keys in order, to which a new one can be added at the end.  Writing what is read
succeeds and changes nothing, and a write that fails has changed nothing. -/
theorem assign_laws (tree : Tree) (p : Path) (value new : Tree) {done : Bool} {result : Tree}
    (h : (assign p value).run tree = (done, result)) :
    (done = true →
      result.at? p = some value ∧
      (assign p new).run result = (assign p new).run tree ∧
      (∀ q, Parts tree p q → result.at? q = tree.at? q) ∧
      ∀ q node, tree.at? q = some node → ¬ Within tree p q →
        ∃ kept, result.at? q = some kept ∧ node.Extends kept ∧
          ((tree.at? p).isSome → kept.keys = node.keys)) ∧
    (tree.at? p = some value → done = true ∧ result = tree) ∧
    (done = false → result = tree) := by
  cases hset : tree.set? p value with
  | none =>
    rw [run_assign_of_none hset] at h
    obtain ⟨rfl, rfl⟩ := Prod.mk.inj h
    refine ⟨nofun, fun hat => ?_, fun _ => rfl⟩
    rw [set?_of_at? hat] at hset
    cases hset
  | some written =>
    rw [run_assign_of_some hset] at h
    obtain ⟨rfl, rfl⟩ := Prod.mk.inj h
    refine ⟨fun _ => ⟨at?_of_set? hset, ?_, fun q hparts => at?_of_parts hparts hset,
      fun q node hnode hnot => exists_extends hnode hnot hset⟩, fun hat => ?_, nofun⟩
    · have hsome : (tree.set? p new).isSome :=
        isSome_set?_iff.mpr (isSome_set?_iff.mp (by rw [hset]; rfl))
      obtain ⟨again, hagain⟩ := Option.isSome_iff_exists.mp hsome
      rw [run_assign_of_some hagain, run_assign_of_some ((set?_of_set? hset new).trans hagain)]
    · rw [set?_of_at? hat] at hset
      exact ⟨rfl, (Option.some.inj hset).symm⟩

/-- A list, and a key beside it that could be an index. -/
def besideList : Tree :=
  .mapping [("list", .sequence [.scalar "a", .scalar "b"]), ("1", .scalar "c")]

/-- The key `01` and the index `1` name one item of the list, which parts from the other item and
from the key `1` beside the list; nothing is left to be written below a text. -/
theorem assign_laws_spellings :
    ∃ result : Tree,
      (assign [.key "list", .key "01"] (.sequence [])).run besideList = (true, result) ∧
      result.at? [.key "list", .index 1] = some (.sequence []) ∧
      result.at? [.key "list", .key "0"] = some (.scalar "a") ∧
      result.at? [.index 1] = some (.scalar "c") ∧
      (assign [.key "list", .index 1] (.scalar "b")).run result = (true, besideList) ∧
      ((assign [.key "list", .key "0", .key "x"] (.scalar "d")).run besideList).2 = besideList := by
  let result : Tree :=
    .mapping [("list", .sequence [.scalar "a", .sequence []]), ("1", .scalar "c")]
  have hrun : (assign [.key "list", .key "01"] (.sequence [])).run besideList = (true, result) :=
    run_assign_of_some (by decide +kernel)
  have hback : (assign [.key "list", .index 1] (.scalar "b")).run result = (true, besideList) :=
    run_assign_of_some (by decide +kernel)
  have hfail : (assign [.key "list", .key "0", .key "x"] (.scalar "d")).run besideList =
      (false, besideList) := run_assign_of_none (by decide +kernel)
  obtain ⟨hdone, -, -⟩ := assign_laws besideList _ _ (.scalar "b") hrun
  obtain ⟨-, -, hfrozen, -⟩ := hdone rfl
  have hitem : Parts besideList [.key "list", .key "01"] [.key "list", .key "0"] :=
    .behind rfl rfl (.here (by decide))
  have hkey : Parts besideList [.key "list", .key "01"] [.index 1] := .here (by decide)
  exact ⟨result, hrun, by decide +kernel, hfrozen _ hitem, hfrozen _ hkey, hback,
    (assign_laws besideList _ _ (.scalar "b") hfail).2.2 rfl⟩

end Tree

end ConfigTree
