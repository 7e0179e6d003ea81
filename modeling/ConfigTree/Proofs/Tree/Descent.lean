import ConfigTree.Tree.Basic
import Mathlib.Logic.Function.Iterate
import Mathlib.Logic.Relation

/-! # Recursion down a tree

A function on trees that calls itself is written as a step: what it answers at a tree, given what
the calls answer.  `Recursion step f` says that `f` answers what the step makes of its own answers,
and that the calls are made strictly below the tree at hand: answers elsewhere make no difference.
Such a recursion is never deeper than the tree is high (`Recursion.iterate_eq`): unrolled so many
times it has the answer, whatever calls still deeper would give.
-/
namespace ConfigTree.Tree

/-! ### What is below a tree -/

mutual
/-- The number of levels of a tree. -/
def height : Tree → Nat
  | .scalar _ => 1
  | .sequence items => heightOfItems items + 1
  | .mapping entries => heightOfEntries entries + 1

/-- The number of levels below a sequence of these items. -/
def heightOfItems : List Tree → Nat
  | [] => 0
  | item :: rest => max item.height (heightOfItems rest)

/-- The number of levels below a mapping of these entries. -/
def heightOfEntries : List (String × Tree) → Nat
  | [] => 0
  | (_, node) :: rest => max node.height (heightOfEntries rest)
end

/-- The parts of a tree.  The keys of a mapping are leaves of it, next to the values. -/
inductive IsPart : Tree → Tree → Prop where
  | item {item : Tree} {items : List Tree} : item ∈ items → IsPart item (.sequence items)
  | key {key : String} {node : Tree} {entries : List (String × Tree)} :
      (key, node) ∈ entries → IsPart (.scalar key) (.mapping entries)
  | value {key : String} {node : Tree} {entries : List (String × Tree)} :
      (key, node) ∈ entries → IsPart node (.mapping entries)

/-- Is the first tree strictly below the second? -/
def Below : Tree → Tree → Prop := Relation.TransGen IsPart

theorem height_pos (tree : Tree) : 0 < tree.height := by
  cases tree <;> simp [height]

theorem height_le_of_mem_items {item : Tree} {items : List Tree} (h : item ∈ items) :
    item.height ≤ heightOfItems items := by
  induction items with
  | nil => cases h
  | cons first rest ih =>
    rw [heightOfItems]
    rcases List.mem_cons.mp h with rfl | h
    · exact Nat.le_max_left _ _
    · exact Nat.le_trans (ih h) (Nat.le_max_right _ _)

theorem height_le_of_mem_entries {key : String} {node : Tree} {entries : List (String × Tree)}
    (h : (key, node) ∈ entries) : node.height ≤ heightOfEntries entries := by
  induction entries with
  | nil => cases h
  | cons first rest ih =>
    obtain ⟨name, child⟩ := first
    rw [heightOfEntries]
    rcases List.mem_cons.mp h with he | h
    · cases he
      exact Nat.le_max_left _ _
    · exact Nat.le_trans (ih h) (Nat.le_max_right _ _)

theorem IsPart.height_lt {part tree : Tree} (h : IsPart part tree) : part.height < tree.height := by
  cases h with
  | item h =>
    have := height_le_of_mem_items h
    rw [height]
    omega
  | @key _ node _ h =>
    have := height_le_of_mem_entries h
    have := node.height_pos
    rw [height, height]
    omega
  | value h =>
    have := height_le_of_mem_entries h
    rw [height]
    omega

theorem Below.height_lt {node tree : Tree} (h : Below node tree) : node.height < tree.height := by
  induction h with
  | single h => exact h.height_lt
  | tail _ h ih => exact Nat.lt_trans ih h.height_lt

/-! ### Recursion -/

variable {α β : Type}

/-- Does the step use answers strictly below the tree at hand only? -/
def CallsBelow (step : (Tree → α) → Tree → β) : Prop :=
  ∀ self other tree, (∀ node, Below node tree → self node = other node) →
    step self tree = step other tree

/-- **A recursion on trees**: the function answers what the step makes of its own answers, and the
step calls strictly below the tree at hand. -/
structure Recursion (step : (Tree → α) → Tree → α) (f : Tree → α) : Prop where
  unfolds : step f = f
  descends : CallsBelow step

/-- **A recursion is not deeper than its tree.** -/
theorem Recursion.iterate_eq {step : (Tree → α) → Tree → α} {f : Tree → α} (h : Recursion step f)
    (start : Tree → α) {depth : Nat} {tree : Tree} (hheight : tree.height ≤ depth) :
    step^[depth] start tree = f tree := by
  induction depth generalizing tree with
  | zero =>
    have := tree.height_pos
    omega
  | succ depth ih =>
    have hbelow : ∀ node, Below node tree → step^[depth] start node = f node := by
      intro node hnode
      have := hnode.height_lt
      exact ih (by omega)
    rw [Function.iterate_succ_apply', h.descends _ f tree hbelow, h.unfolds]

end ConfigTree.Tree
