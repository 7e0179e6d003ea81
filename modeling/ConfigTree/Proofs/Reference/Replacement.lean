import ConfigTree.Proofs.Reference.Seam

/-! # Final texts in the place of references

What a resolved tree says of its source: every leaf is its source text with each reference replaced
by the final text of the name, as long as no reference is found across a seam
(`resolve_eq_substitute`).  Where one is, this fails (`resolve_fusedReference`): the passes see only
the text as it is now, so the end of a text that was put in and the characters behind the braces
become one bare name.  Braced references to clean names leave nothing open at their end, so trees
that hold no others are always resolved in this way.
-/
namespace ConfigTree

/-- Braced texts are rewritten without a seam. -/
theorem Braced.seamless {table : Table} (hkeys : ∀ key ∈ Entries.keys table, BraceFree key)
    (hvalues : ∀ leaf ∈ table, Braced (Entries.keys table) leaf.2.toList) {text : List Char}
    (h : Braced (Entries.keys table) text) : Seamless table text := by
  unfold Seamless
  induction h with
  | nil => rfl
  | @plain c rest hc _ ih =>
    rw [rewritten_plain table hc, scanFrom_plain table hc, scanFrom_plain table hc, ih]
    rfl
  | @reference name rest hname hne _ ih =>
    obtain ⟨value, hmem, hcut⟩ := scanFrom_braced hkeys hname hne
    have hnew : ConfigTree.rewritten table ('$' :: '{' :: (name.toList ++ '}' :: rest)) =
        value.toList ++ ConfigTree.rewritten table rest := by
      rw [ConfigTree.rewritten, hcut]
      rfl
    rw [hnew, (hvalues _ hmem).scanFrom_append hkeys, hcut, ih]
    rfl

namespace Tree

/-- A tree of braced texts whose names hold no braces. -/
structure BracedLeaves (tree : Tree) : Prop where
  braceFree : ∀ name ∈ tree.names, BraceFree name
  braced : ∀ leaf ∈ tree.leaves, ConfigTree.Braced (Entries.keys tree.flatten) leaf.2.toList

theorem BracedLeaves.of_braced {tree : Tree} (hfree : ∀ name ∈ tree.names, BraceFree name)
    (h : tree.Braced) : tree.BracedLeaves where
  braceFree := hfree
  braced := by
    intro leaf hl
    refine ConfigTree.Braced.of_bracedIn fun after hafter => ?_
    obtain ⟨name, hname, hpre⟩ := h leaf hl after hafter
    refine ⟨name, ?_, hpre⟩
    simpa [mem_keys_flatten] using hname

theorem BracedLeaves.braceFree_keys {tree : Tree} (h : tree.BracedLeaves) :
    ∀ key ∈ Entries.keys tree.flatten, BraceFree key :=
  fun key hk => h.braceFree key (mem_keys_flatten.mp hk)

theorem BracedLeaves.braced_table {tree : Tree} (h : tree.BracedLeaves) :
    ∀ leaf ∈ tree.flatten, ConfigTree.Braced (Entries.keys tree.flatten) leaf.2.toList :=
  fun leaf hl => h.braced leaf (mem_leaves_of_mem_flatten hl)

theorem BracedLeaves.braced_textAt {tree : Tree} (h : tree.BracedLeaves) (name : String) :
    ConfigTree.Braced (Entries.keys tree.flatten) (tree.flatten.textAt name) := by
  rcases textAt_eq_nil_or_mem tree.flatten name with hnil | ⟨text, hmem, htext⟩
  · exact hnil ▸ .nil
  · exact htext ▸ h.braced_table _ hmem

theorem BracedLeaves.seamless {tree : Tree} (h : tree.BracedLeaves) : tree.Seamless :=
  fun leaf hl => (h.braced leaf hl).seamless h.braceFree_keys h.braced_table

theorem BracedLeaves.pass {tree : Tree} (h : tree.BracedLeaves) : tree.pass.BracedLeaves where
  braceFree := by
    rw [names_pass]
    exact h.braceFree
  braced := by
    intro leaf hl
    rw [leaves_pass] at hl
    obtain ⟨source, hs, rfl⟩ := List.mem_map.mp hl
    rw [flatten_pass, Table.keys_pass, substituteText_toList]
    exact (h.braced source hs).rewritten h.braceFree_keys h.braced_table

theorem BracedLeaves.iterate_pass {tree : Tree} (h : tree.BracedLeaves) (k : Nat) :
    (Tree.pass^[k] tree).BracedLeaves := by
  induction k with
  | zero => exact h
  | succ k ih =>
    rw [Function.iterate_succ_apply']
    exact ih.pass

theorem eq_substitute_of_seamless {cap : Nat} {tree result : Tree}
    (h : tree.resolve cap = .ok result)
    (hseam : ∀ k < cap, ¬ tree.StandsAt k → (Tree.pass^[k] tree).Seamless) :
    result = tree.substitute result.flatten := by
  obtain ⟨n, hn, hs, hu, rfl⟩ := resolve_eq_ok_iff.mp h
  -- All passes before the standstill change the table, and the last one only shows that it stands.
  have hearlier : ∀ k < n, (Tree.pass^[k] tree).Seamless :=
    fun k hk => hseam k (Nat.lt_trans hk hn) (hs.2 k hk)
  rw [hs.1, Function.iterate_succ_apply']
  exact pass_eq_substitute hearlier hu

/-- **A resolved tree is its source with the final texts put in**, if each pass that changes the
table is seamless; and so it is if the names hold no braces and every dollar sign of the source
starts a braced reference. -/
theorem resolve_eq_substitute {cap : Nat} {tree result : Tree}
    (h : tree.resolve cap = .ok result) :
    ((∀ k < cap, ¬ tree.StandsAt k → (Tree.pass^[k] tree).Seamless) →
      result = tree.substitute result.flatten) ∧
    ((∀ name ∈ tree.names, BraceFree name) → tree.Braced →
      result = tree.substitute result.flatten) := by
  refine ⟨eq_substitute_of_seamless h, fun hfree hbraced => ?_⟩
  refine eq_substitute_of_seamless h fun k _ _ => ?_
  exact ((BracedLeaves.of_braced hfree hbraced).iterate_pass k).seamless

/-- A chain of references, and a leaf that refers to two of its members. -/
def prefixedChain : Tree :=
  .mapping [("a", .scalar "$b"), ("b", .scalar "x$c"), ("c", .scalar "1"),
    ("d", .scalar "$\x7ba\x7d and $b.")]

/-- Three passes change `d`, and none of them reads it across a seam. -/
theorem resolve_eq_substitute_chain :
    ∃ result : Tree, prefixedChain.resolve 12 = .ok result ∧
      (∀ k < 12, ¬ prefixedChain.StandsAt k → (Tree.pass^[k] prefixedChain).Seamless) ∧
      result = prefixedChain.substitute result.flatten ∧
      result.get? "d" = some (.scalar "x1 and x1.") := by
  let result : Tree := .mapping [("a", .scalar "x1"), ("b", .scalar "x1"), ("c", .scalar "1"),
    ("d", .scalar "x1 and x1.")]
  have hres : prefixedChain.resolve 12 = .ok result := by decide +kernel
  have hseam : ∀ k < 12, ¬ prefixedChain.StandsAt k → (Tree.pass^[k] prefixedChain).Seamless := by
    decide +kernel
  exact ⟨result, hres, hseam, (resolve_eq_substitute hres).1 hseam, rfl⟩

/-- The text of `a`, put in front of an `x`, makes another name of its reference. -/
def fusedReference : Tree :=
  .mapping [("a", .scalar "$b"), ("b", .scalar "1"), ("c", .scalar "$\x7ba\x7dx")]

/-- In the end `a` is `1`, but the braced reference to it in `c` is not replaced by `1`. -/
theorem resolve_fusedReference :
    ∃ result, fusedReference.resolve defaultCap = .ok result ∧
      result.get? "a" = some (.scalar "1") ∧ result.get? "c" = some (.scalar "$bx") ∧
      (fusedReference.substitute result.flatten).get? "c" = some (.scalar "1x") ∧
      result ≠ fusedReference.substitute result.flatten := by
  refine ⟨.mapping [("a", .scalar "1"), ("b", .scalar "1"), ("c", .scalar "$bx")],
    ?_, rfl, rfl, ?_, ?_⟩ <;> decide +kernel

end Tree

end ConfigTree
