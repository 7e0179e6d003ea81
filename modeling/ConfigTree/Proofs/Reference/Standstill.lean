import ConfigTree.Proofs.Reference.Replacement

/-! # What a standstill with references says

A run that fails because its table stood still reports names that come to a cycle of *that* table.
Whether this is a cycle of the source is another question.  The passes before the standstill compose
references as long as they read none across a seam, and then each walk of the last table is one of
the first (`Tree.StandsAt.reachesCycle_source`).  Where a pass reads a reference across a seam, it
can close a cycle that the source does not have: `resolve_crossedSeam`.
-/
namespace ConfigTree
open Relation

/-- Where every reference lowers a rank, there is no cycle. -/
theorem Table.not_transGen_of_rank {table : Table} (rank : String → Nat)
    (hrank : ∀ leaf ∈ table, ∀ other ∈ referencesIn table leaf.2, rank other < rank leaf.1)
    (name : String) : ¬ TransGen table.Refers name name := by
  have hlower : ∀ {a b}, TransGen table.Refers a b → rank b < rank a := by
    intro a b h
    induction h with
    | single href =>
      obtain ⟨text, hleaf, hother⟩ := href
      exact hrank _ hleaf _ hother
    | tail _ href ih =>
      obtain ⟨text, hleaf, hother⟩ := href
      exact Nat.lt_trans (hrank _ hleaf _ hother) ih
  exact fun h => Nat.lt_irrefl _ (hlower h)

namespace Tree
variable {tree : Tree} {k : Nat}

theorem StandsAt.reachesCycle (h : tree.StandsAt k) {name : String}
    (hname : name ∈ unresolvedNames (pass^[k] tree).flatten) :
    (pass^[k] tree).flatten.ReachesCycle name :=
  Table.reachesCycle_of_unresolved (Table.pass_eq_self_iff.mp (standsAt_iff.mp h)) hname

/-- **A cycle of the table that stands still is one of the source**, if the passes before were
seamless. -/
theorem StandsAt.reachesCycle_source (h : tree.StandsAt k)
    (hseam : ∀ j < k, (pass^[j] tree).Seamless) {name : String}
    (hname : name ∈ unresolvedNames (pass^[k] tree).flatten) : tree.flatten.ReachesCycle name := by
  have hk := nodupKeys_flatten tree
  have htables := seamless_iterate_flatten hseam
  obtain ⟨other, hwalk, hcycle⟩ := h.reachesCycle hname
  rw [flatten_iterate_pass] at hwalk hcycle
  refine ⟨other, ?_, transGen_of_transGen_iterate hk htables hcycle⟩
  rcases reflTransGen_iff_eq_or_transGen.mp hwalk with rfl | hsteps
  · exact .refl
  · exact (transGen_of_transGen_iterate hk htables hsteps).to_reflTransGen

/-- What is reported where the table stood still: the names with references in that table. -/
theorem StandsAt.of_resolve_eq_error {cap : Nat} {cause : Divergence} (hstands : tree.StandsAt k)
    (hk : k < cap) (h : tree.resolve cap = .error cause) :
    ∃ j ≤ k, tree.Settles j ∧ cause.iterations = j + 1 ∧ cause.unresolved ≠ [] ∧
      cause.unresolved = unresolvedNames (pass^[j] tree).flatten := by
  obtain ⟨j, hj, hs⟩ := exists_settles hstands
  rw [resolve_of_settles (Nat.lt_of_le_of_lt hj hk) hs, settled_eq_error_iff, hs.1] at h
  obtain ⟨hu, rfl⟩ := h
  exact ⟨j, hj, hs, rfl, hu, rfl⟩

/-- Where no reported name could come to a cycle of the table, the resolution succeeds. -/
theorem exists_resolve_eq_ok_of_acyclic {cap : Nat} {table : Table}
    (hreported : ∀ cause, tree.resolve cap = .error cause →
      ∃ name ∈ cause.unresolved, table.ReachesCycle name)
    (hacyclic : ∀ name, ¬ TransGen table.Refers name name) :
    ∃ result, tree.resolve cap = .ok result := by
  cases hres : tree.resolve cap with
  | ok result => exact ⟨result, rfl⟩
  | error cause =>
    obtain ⟨name, _, other, _, hcycle⟩ := hreported cause hres
    exact absurd hcycle (hacyclic other)

end Tree

/-- **A standstill with references is a cycle.**  A name of a table that one pass leaves unchanged
comes to a cycle if its text refers to the table.  So all names that are reported because the table
stood still come to a cycle of the table that stood still, and where that table has no cycle the
resolution succeeds.  If no pass before the standstill reads a reference across a seam, all of this
holds of the table of the source as well; and so it is if the names hold no braces and every dollar
sign of the source starts a braced reference. -/
theorem reachesCycle_of_standstill (cap : Nat) (tree : Tree) :
    (∀ table : Table, (∀ leaf ∈ table, substituteText table leaf.2 = leaf.2) →
      ∀ leaf ∈ table, referencesIn table leaf.2 ≠ [] → table.ReachesCycle leaf.1) ∧
    (∀ cause, tree.resolve cap = .error cause → (∃ k < cap, tree.StandsAt k) →
      ∃ k < cap, tree.Settles k ∧ cause.iterations = k + 1 ∧ cause.unresolved ≠ [] ∧
        ∀ name ∈ cause.unresolved, (Tree.pass^[k] tree).flatten.ReachesCycle name) ∧
    (∀ k < cap, tree.StandsAt k →
      (∀ name, ¬ TransGen (Tree.pass^[k] tree).flatten.Refers name name) →
      ∃ result, tree.resolve cap = .ok result) ∧
    (∀ k < cap, tree.StandsAt k → (∀ j < k, (Tree.pass^[j] tree).Seamless) →
      (∀ cause, tree.resolve cap = .error cause →
        ∀ name ∈ cause.unresolved, tree.flatten.ReachesCycle name) ∧
      ((∀ name, ¬ TransGen tree.flatten.Refers name name) →
        ∃ result, tree.resolve cap = .ok result)) ∧
    ((∀ name ∈ tree.names, BraceFree name) → tree.Braced →
      ∀ j, (Tree.pass^[j] tree).Seamless) := by
  refine ⟨?_, ?_, ?_, ?_, ?_⟩
  · intro table hfixed leaf hl hne
    exact Table.reachesCycle_of_unresolved hfixed (mem_unresolvedNames.mpr ⟨leaf.2, hl, hne⟩)
  · rintro cause herror ⟨k, hk, hstands⟩
    obtain ⟨j, hj, hs, hcount, hne, hnames⟩ := hstands.of_resolve_eq_error hk herror
    exact ⟨j, Nat.lt_of_le_of_lt hj hk, hs, hcount, hne,
      fun name hname => hs.1.reachesCycle (hnames ▸ hname)⟩
  · intro k hk hstands hacyclic
    refine Tree.exists_resolve_eq_ok_of_acyclic (fun cause herror => ?_) hacyclic
    obtain ⟨j, hj, hs, -, hne, hnames⟩ := hstands.of_resolve_eq_error hk herror
    obtain ⟨name, hname⟩ := List.exists_mem_of_ne_nil _ hne
    refine ⟨name, hname, ?_⟩
    rw [hs.1.flatten_eq hj]
    exact hs.1.reachesCycle (hnames ▸ hname)
  · intro k hk hstands hseam
    have hsource : ∀ cause, tree.resolve cap = .error cause →
        cause.unresolved ≠ [] ∧ ∀ name ∈ cause.unresolved, tree.flatten.ReachesCycle name := by
      intro cause herror
      obtain ⟨j, hj, hs, -, hne, hnames⟩ := hstands.of_resolve_eq_error hk herror
      have hbefore : ∀ i < j, (Tree.pass^[i] tree).Seamless :=
        fun i hi => hseam i (Nat.lt_of_lt_of_le hi hj)
      exact ⟨hne, fun name hname => hs.1.reachesCycle_source hbefore (hnames ▸ hname)⟩
    refine ⟨fun cause herror => (hsource cause herror).2, fun hacyclic => ?_⟩
    refine Tree.exists_resolve_eq_ok_of_acyclic (fun cause herror => ?_) hacyclic
    obtain ⟨hne, hcycle⟩ := hsource cause herror
    obtain ⟨name, hname⟩ := List.exists_mem_of_ne_nil _ hne
    exact ⟨name, hname, hcycle name hname⟩
  · intro hfree hbraced j
    exact ((Tree.BracedLeaves.of_braced hfree hbraced).iterate_pass j).seamless

/-- Two leaves that refer to each other, and one that refers to them. -/
def Tree.mutualReference : Tree :=
  .mapping [("a", .scalar "$b"), ("b", .scalar "$a"), ("c", .scalar "x $a")]

/-- After two passes `a` and `b` stand for themselves, and `c` for `b`.  No pass reads a reference
across a seam, so each of them comes to the cycle of the source. -/
theorem reachesCycle_of_standstill_swap :
    Tree.mutualReference.resolve defaultCap = .error ⟨2, ["a", "b", "c"]⟩ ∧
    (∃ k < defaultCap, Tree.mutualReference.Settles k ∧
      ∀ name ∈ ["a", "b", "c"], (Tree.pass^[k] Tree.mutualReference).flatten.ReachesCycle name) ∧
    ∀ name ∈ ["a", "b", "c"], Tree.mutualReference.flatten.ReachesCycle name := by
  have herror : Tree.mutualReference.resolve defaultCap = .error ⟨2, ["a", "b", "c"]⟩ := by
    decide +kernel
  have hstands : Tree.mutualReference.StandsAt 1 := by decide +kernel
  have hseam : ∀ j < 1, (Tree.pass^[j] Tree.mutualReference).Seamless := by decide +kernel
  obtain ⟨-, hstanding, -, hsource, -⟩ :=
    reachesCycle_of_standstill defaultCap Tree.mutualReference
  obtain ⟨k, hk, hs, -, -, hcycle⟩ := hstanding _ herror ⟨1, by decide, hstands⟩
  exact ⟨herror, ⟨k, hk, hs, hcycle⟩, (hsource 1 (by decide) hstands hseam).1 _ herror⟩

/-- The text of `r`, put in front of an `x`, becomes a reference to the leaf it is put into. -/
def Tree.crossedSeam : Tree :=
  .mapping [("q", .scalar "1"), ("r", .scalar "$q"), ("qx", .scalar "${r}x")]

/-- No leaf leads to a cycle, but the first pass makes `$qx` of the text of `qx`, and the second one
changes nothing. -/
theorem resolve_crossedSeam :
    (∀ name, ¬ TransGen Tree.crossedSeam.flatten.Refers name name) ∧
    Tree.crossedSeam.Settles 1 ∧ Tree.crossedSeam.resolve defaultCap = .error ⟨2, ["qx"]⟩ := by
  refine ⟨?_, by decide +kernel, by decide +kernel⟩
  exact Table.not_transGen_of_rank (["q", "r", "qx"].idxOf ·) (by decide +kernel)

end ConfigTree
