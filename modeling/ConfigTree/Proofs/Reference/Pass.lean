import ConfigTree.Proofs.Reference.Scan
import ConfigTree.Proofs.Tree.FlatName
import ConfigTree.Proofs.Tree.Validity
import ConfigTree.Reference.Resolve
import Mathlib.Logic.Function.Iterate
import Mathlib.Data.Nat.Find

/-! # Passes, one after the other

A pass over a tree is a pass over the table of its leaves (`flatten_pass`): the leaves keep their
names, and what happens to a text depends on the table alone.  So a run is the sequence of tables
`Table.pass^[k]`, and it is over at the first place where this sequence **stands**.
`resolve_eq_ok_iff` and `resolve_eq_error_iff` say what `Tree.resolve` answers in these terms; no
other module unfolds it.
-/
namespace ConfigTree

/-- A pass over a table: every text is rewritten with the texts of the table itself. -/
def Table.pass (table : Table) : Table := Entries.mapValues (substituteText table) table

@[simp] theorem Table.keys_pass (table : Table) :
    Entries.keys table.pass = Entries.keys table := Entries.keys_mapValues ..

theorem Table.keys_iterate_pass (table : Table) (k : Nat) :
    Entries.keys (Table.pass^[k] table) = Entries.keys table := by
  induction k with
  | zero => rfl
  | succ k ih => rw [Function.iterate_succ_apply', Table.keys_pass, ih]

theorem Table.keys_iterate_pass_eq (table : Table) (n k : Nat) :
    Entries.keys (Table.pass^[n] table) = Entries.keys (Table.pass^[k] table) := by
  rw [Table.keys_iterate_pass, Table.keys_iterate_pass]

theorem Table.pass_eq_self_iff {table : Table} :
    table.pass = table ↔ ∀ leaf ∈ table, substituteText table leaf.2 = leaf.2 := by
  have hmap : table.pass = table ↔
      table.map (fun leaf => (leaf.1, substituteText table leaf.2)) = table.map id := by
    rw [List.map_id]
    rfl
  rw [hmap, List.map_inj_left]
  constructor
  · intro h leaf hl
    exact congrArg Prod.snd (h leaf hl)
  · intro h leaf hl
    exact Prod.ext rfl (h leaf hl)

/-- A pass rewrites the text of every name. -/
theorem Table.textAt_pass (table : Table) (name : String) :
    table.pass.textAt name = rewritten table (table.textAt name) := by
  unfold Table.textAt Table.pass
  rw [Entries.get?_mapValues]
  cases Entries.get? table name with
  | none => simp [rewritten, scanFrom]
  | some text => simp

theorem mem_unresolvedNames {table : Table} {name : String} :
    name ∈ unresolvedNames table ↔
      ∃ text, (name, text) ∈ table ∧ referencesIn table text ≠ [] := by
  simp [unresolvedNames, List.mem_map, List.mem_filter]

theorem unresolvedNames_eq_nil_iff {table : Table} :
    unresolvedNames table = [] ↔ ∀ leaf ∈ table, referencesIn table leaf.2 = [] := by
  rw [List.eq_nil_iff_forall_not_mem]
  constructor
  · intro h leaf hl
    by_contra hne
    exact h leaf.1 (mem_unresolvedNames.mpr ⟨leaf.2, hl, hne⟩)
  · intro h name hm
    obtain ⟨text, hl, hne⟩ := mem_unresolvedNames.mp hm
    exact hne (h _ hl)

namespace Tree

theorem nodupKeys_flatten (tree : Tree) : Entries.NodupKeys tree.flatten :=
  Entries.nodupKeys_ofList _

theorem mem_leaves_of_mem_flatten {tree : Tree} {leaf : String × String}
    (h : leaf ∈ tree.flatten) : leaf ∈ tree.leaves :=
  Entries.mem_of_mem_ofList h

/-- **A pass over a tree is a pass over its table.** -/
theorem flatten_pass (tree : Tree) : tree.pass.flatten = tree.flatten.pass := by
  unfold flatten pass substitute
  rw [leaves_mapLeaves]
  exact Entries.ofList_mapValues _ _

theorem flatten_iterate_pass (tree : Tree) (k : Nat) :
    (pass^[k] tree).flatten = Table.pass^[k] tree.flatten :=
  Function.Semiconj.iterate_right flatten_pass k tree

theorem leaves_pass (tree : Tree) :
    tree.pass.leaves =
      tree.leaves.map fun leaf => (leaf.1, substituteText tree.flatten leaf.2) :=
  leaves_mapLeaves ..

@[simp] theorem names_pass (tree : Tree) : tree.pass.names = tree.names := by
  rw [names, leaves_pass, List.map_map]
  rfl

theorem names_iterate_pass (tree : Tree) (k : Nat) : (pass^[k] tree).names = tree.names := by
  induction k with
  | zero => rfl
  | succ k ih => rw [Function.iterate_succ_apply', names_pass, ih]

theorem mem_keys_flatten {tree : Tree} {name : String} :
    name ∈ Entries.keys tree.flatten ↔ name ∈ tree.names :=
  Entries.mem_keys_ofList

/-- The table of the leaves stands still in the pass after the first `k`. -/
def StandsAt (tree : Tree) (k : Nat) : Prop :=
  (pass^[k + 1] tree).flatten = (pass^[k] tree).flatten

/-- The pass after the first `k` is the first one in which the table stands still. -/
def Settles (tree : Tree) (k : Nat) : Prop :=
  tree.StandsAt k ∧ ∀ j < k, ¬ tree.StandsAt j

instance (tree : Tree) (k : Nat) : Decidable (tree.StandsAt k) :=
  inferInstanceAs (Decidable (_ = _))

instance (tree : Tree) (k : Nat) : Decidable (tree.Settles k) :=
  inferInstanceAs (Decidable (_ ∧ _))

theorem standsAt_iff {tree : Tree} {k : Nat} :
    tree.StandsAt k ↔ (pass^[k] tree).flatten.pass = (pass^[k] tree).flatten := by
  rw [StandsAt, Function.iterate_succ_apply', flatten_pass]

theorem settles_zero {tree : Tree} : tree.Settles 0 ↔ tree.StandsAt 0 :=
  and_iff_left fun j hj => absurd hj (Nat.not_lt_zero j)

theorem settles_succ {tree : Tree} {k : Nat} :
    tree.Settles (k + 1) ↔ ¬ tree.StandsAt 0 ∧ tree.pass.Settles k := by
  unfold Settles
  constructor
  · rintro ⟨hs, hfirst⟩
    exact ⟨hfirst 0 (Nat.succ_pos k), hs, fun j hj => hfirst (j + 1) (Nat.succ_lt_succ hj)⟩
  · rintro ⟨h0, hs, hfirst⟩
    refine ⟨hs, fun j hj => ?_⟩
    cases j with
    | zero => exact h0
    | succ j => exact hfirst j (Nat.lt_of_succ_lt_succ hj)

theorem exists_settles {tree : Tree} {k : Nat} (h : tree.StandsAt k) :
    ∃ j ≤ k, tree.Settles j :=
  ⟨Nat.find ⟨k, h⟩, Nat.find_min' _ h, Nat.find_spec ⟨k, h⟩, fun _ hj => Nat.find_min _ hj⟩

/-- Once the table stands still, it does so in every later pass. -/
theorem StandsAt.flatten_eq {tree : Tree} {k : Nat} (h : tree.StandsAt k) {j : Nat} (hj : k ≤ j) :
    (pass^[j] tree).flatten = (pass^[k] tree).flatten := by
  obtain ⟨d, rfl⟩ := Nat.exists_eq_add_of_le hj
  rw [Nat.add_comm, Function.iterate_add_apply, flatten_iterate_pass]
  exact Function.iterate_fixed (standsAt_iff.mp h) d

/-- What is answered when the table stood still in the pass that made `next`. -/
def settled (made : Nat) (next : Tree) : Except Divergence Tree :=
  match unresolvedNames next.flatten with
  | [] => .ok next
  | unresolved => .error ⟨made, unresolved⟩

theorem settled_eq_ok_iff {made : Nat} {next result : Tree} :
    settled made next = .ok result ↔ unresolvedNames next.flatten = [] ∧ next = result := by
  unfold settled
  cases unresolvedNames next.flatten with
  | nil => simp
  | cons name rest => simp

theorem settled_eq_error_iff {made : Nat} {next : Tree} {cause : Divergence} :
    settled made next = .error cause ↔
      unresolvedNames next.flatten ≠ [] ∧ cause = ⟨made, unresolvedNames next.flatten⟩ := by
  unfold settled
  cases unresolvedNames next.flatten with
  | nil => simp
  | cons name rest => simpa using eq_comm

theorem resolveFrom_of_settles {made left k : Nat} {tree : Tree} (hk : k < left)
    (h : tree.Settles k) :
    resolveFrom made left tree = settled (made + k + 1) (pass^[k + 1] tree) := by
  induction left generalizing made k tree with
  | zero => exact absurd hk (Nat.not_lt_zero k)
  | succ left ih =>
    cases k with
    | zero => exact if_pos (settles_zero.mp h)
    | succ k =>
      obtain ⟨h0, hrest⟩ := settles_succ.mp h
      have hstep : resolveFrom made (left + 1) tree = resolveFrom (made + 1) left tree.pass :=
        if_neg h0
      rw [hstep, ih (Nat.lt_of_succ_lt_succ hk) hrest, Nat.add_right_comm made 1 k]
      rfl

theorem resolveFrom_of_not_standsAt {made left : Nat} {tree : Tree}
    (h : ∀ k < left, ¬ tree.StandsAt k) :
    resolveFrom made left tree =
      .error ⟨made + left, unresolvedNames (pass^[left] tree).flatten⟩ := by
  induction left generalizing made tree with
  | zero => rfl
  | succ left ih =>
    have hstep : resolveFrom made (left + 1) tree = resolveFrom (made + 1) left tree.pass :=
      if_neg (h 0 (Nat.succ_pos left))
    rw [hstep, ih fun k hk => h (k + 1) (Nat.succ_lt_succ hk), Nat.add_right_comm made 1 left]
    rfl

theorem resolve_of_settles {cap k : Nat} {tree : Tree} (hk : k < cap) (h : tree.Settles k) :
    tree.resolve cap = settled (k + 1) (pass^[k + 1] tree) := by
  rw [resolve, resolveFrom_of_settles hk h, Nat.zero_add]

theorem resolve_of_not_standsAt {cap : Nat} {tree : Tree} (h : ∀ k < cap, ¬ tree.StandsAt k) :
    tree.resolve cap = .error ⟨cap, unresolvedNames (pass^[cap] tree).flatten⟩ := by
  rw [resolve, resolveFrom_of_not_standsAt h, Nat.zero_add]

/-- Either the table stands still within the cap, or the cap is used up. -/
theorem settles_or_not_standsAt (tree : Tree) (cap : Nat) :
    (∃ k < cap, tree.Settles k) ∨ ∀ k < cap, ¬ tree.StandsAt k := by
  by_cases h : ∃ k < cap, tree.StandsAt k
  · obtain ⟨k, hk, hs⟩ := h
    obtain ⟨j, hj, hsettles⟩ := exists_settles hs
    exact Or.inl ⟨j, Nat.lt_of_le_of_lt hj hk, hsettles⟩
  · exact Or.inr fun k hk hs => h ⟨k, hk, hs⟩

/-- **Success**: the table stood still within the cap, and no reference was left. -/
theorem resolve_eq_ok_iff {cap : Nat} {tree result : Tree} :
    tree.resolve cap = .ok result ↔
      ∃ k < cap, tree.Settles k ∧ unresolvedNames (pass^[k] tree).flatten = [] ∧
        result = pass^[k + 1] tree := by
  constructor
  · intro h
    rcases tree.settles_or_not_standsAt cap with ⟨k, hk, hs⟩ | hnone
    · rw [resolve_of_settles hk hs, settled_eq_ok_iff] at h
      exact ⟨k, hk, hs, hs.1 ▸ h.1, h.2.symm⟩
    · rw [resolve_of_not_standsAt hnone] at h
      cases h
  · rintro ⟨k, hk, hs, hu, rfl⟩
    rw [resolve_of_settles hk hs, settled_eq_ok_iff]
    exact ⟨hs.1.symm ▸ hu, rfl⟩

/-- **Failure**: the table stood still and held references, or the cap was used up. -/
theorem resolve_eq_error_iff {cap : Nat} {tree : Tree} {cause : Divergence} :
    tree.resolve cap = .error cause ↔
      (∃ k < cap, tree.Settles k ∧ unresolvedNames (pass^[k] tree).flatten ≠ [] ∧
        cause = ⟨k + 1, unresolvedNames (pass^[k] tree).flatten⟩) ∨
      ((∀ k < cap, ¬ tree.StandsAt k) ∧
        cause = ⟨cap, unresolvedNames (pass^[cap] tree).flatten⟩) := by
  constructor
  · intro h
    rcases tree.settles_or_not_standsAt cap with ⟨k, hk, hs⟩ | hnone
    · rw [resolve_of_settles hk hs, settled_eq_error_iff, hs.1] at h
      exact Or.inl ⟨k, hk, hs, h⟩
    · rw [resolve_of_not_standsAt hnone] at h
      cases h
      exact Or.inr ⟨hnone, rfl⟩
  · rintro (⟨k, hk, hs, hu⟩ | ⟨hnone, rfl⟩)
    · rw [resolve_of_settles hk hs, settled_eq_error_iff, hs.1]
      exact hu
    · exact resolve_of_not_standsAt hnone

/-- A table without references stands still. -/
theorem standsAt_of_unresolvedNames_eq_nil {tree : Tree} {k : Nat}
    (h : unresolvedNames (pass^[k] tree).flatten = []) : tree.StandsAt k := by
  rw [standsAt_iff, Table.pass_eq_self_iff]
  intro leaf hl
  exact substituteText_eq_iff.mpr (rewritten_eq_self (unresolvedNames_eq_nil_iff.mp h leaf hl))

/-- A tree whose references are gone after some passes is resolved by one pass more. -/
theorem exists_resolve_of_unresolvedNames_eq_nil {cap k : Nat} {tree : Tree}
    (h : unresolvedNames (pass^[k] tree).flatten = []) (hk : k < cap) :
    ∃ result, tree.resolve cap = .ok result := by
  obtain ⟨j, hj, hsettles⟩ := exists_settles (standsAt_of_unresolvedNames_eq_nil h)
  rw [hsettles.1.flatten_eq hj] at h
  exact ⟨_, resolve_eq_ok_iff.mpr ⟨j, Nat.lt_of_le_of_lt hj hk, hsettles, h, rfl⟩⟩

/-! ### Validity -/

theorem Valid.iterate_pass {tree : Tree} (h : tree.Valid) (k : Nat) : (pass^[k] tree).Valid := by
  induction k with
  | zero => exact h
  | succ k ih =>
    rw [Function.iterate_succ_apply']
    exact ih.mapLeaves _

theorem Valid.resolve {cap : Nat} {tree result : Tree} (h : tree.Valid)
    (hresolve : tree.resolve cap = .ok result) : result.Valid := by
  obtain ⟨k, -, -, -, rfl⟩ := resolve_eq_ok_iff.mp hresolve
  exact h.iterate_pass (k + 1)

end Tree

end ConfigTree
