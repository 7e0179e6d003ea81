import ConfigTree.Parameters.Basic
import ConfigTree.Proofs.Reference.Cycle

/-! # Resolving twice

Whether passes are over is judged by the table of the leaves.  A leaf whose name is given again
further on does not show in that table, so it can still hold references when the table stands
still.  Resolving such a tree again always succeeds, since the table has nothing to resolve, but it
makes one more pass over the hidden leaf.  `resolve_eq_ok_pass` says so, and `resolve_resolve` that
this is the only way in which a second resolution changes anything: where no two leaves have one
name, resolving is idempotent.
-/
namespace ConfigTree
namespace Tree

/-- A resolved tree stands still, and its table holds no references. -/
theorem standsAt_zero_of_resolve {cap : Nat} {tree result : Tree}
    (h : tree.resolve cap = .ok result) :
    0 < cap ∧ result.StandsAt 0 ∧ unresolvedNames result.flatten = [] := by
  obtain ⟨k, hk, hs, hu, rfl⟩ := resolve_eq_ok_iff.mp h
  refine ⟨Nat.zero_lt_of_lt hk, ?_, ?_⟩
  · rw [standsAt_iff]
    exact hs.1.symm ▸ standsAt_iff.mp hs.1
  · rw [hs.1]
    exact hu

/-- **Resolving again succeeds, and makes one more pass.** -/
theorem resolve_eq_ok_pass {cap : Nat} {tree result : Tree} (h : tree.resolve cap = .ok result) :
    result.resolve cap = .ok result.pass := by
  obtain ⟨hcap, hstands, hu⟩ := standsAt_zero_of_resolve h
  exact resolve_eq_ok_iff.mpr ⟨0, hcap, settles_zero.mpr hstands, hu, rfl⟩

/-- A pass leaves a tree without references in its table as it is exactly if no leaf holds one.  A
leaf with references cannot come out unchanged, as the texts put into it hold none. -/
theorem pass_eq_self_iff {tree : Tree} (hu : unresolvedNames tree.flatten = []) :
    tree.pass = tree ↔ ∀ leaf ∈ tree.leaves, referencesIn tree.flatten leaf.2 = [] := by
  unfold pass substitute
  rw [mapLeaves_eq_self_iff]
  have hclean := unresolvedNames_eq_nil_iff.mp hu
  constructor
  · intro h leaf hl
    -- A leaf with references that stands still would name a leaf with references.
    by_contra hne
    obtain ⟨_, _, _, hmem, hv⟩ := exists_unresolved_of_fixed (h leaf hl) hne
    exact hv (hclean _ hmem)
  · intro h leaf hl
    exact substituteText_eq_iff.mpr (rewritten_eq_self (h leaf hl))

/-- A tree is resolved to itself exactly if none of its leaves refers to its table. -/
theorem resolve_eq_self_iff {cap : Nat} (hcap : 0 < cap) {tree : Tree} :
    tree.resolve cap = .ok tree ↔
      ∀ leaf ∈ tree.leaves, referencesIn tree.flatten leaf.2 = [] := by
  constructor
  · intro h
    rw [← pass_eq_self_iff (standsAt_zero_of_resolve h).2.2]
    exact (Except.ok.inj (h.symm.trans (resolve_eq_ok_pass h))).symm
  · intro h
    have hu : unresolvedNames tree.flatten = [] :=
      unresolvedNames_eq_nil_iff.mpr fun leaf hl => h leaf (mem_leaves_of_mem_flatten hl)
    have hpass : tree.pass = tree := (pass_eq_self_iff hu).mpr h
    have hstands : tree.StandsAt 0 := by
      rw [standsAt_iff, ← flatten_pass]
      exact congrArg flatten hpass
    exact resolve_eq_ok_iff.mpr ⟨0, hcap, settles_zero.mpr hstands, hu, hpass.symm⟩

theorem referencesIn_eq_nil_of_resolve {cap : Nat} {tree result : Tree}
    (hnodup : tree.names.Nodup) (h : tree.resolve cap = .ok result) :
    ∀ leaf ∈ result.leaves, referencesIn result.flatten leaf.2 = [] := by
  obtain ⟨_, _, hu⟩ := standsAt_zero_of_resolve h
  obtain ⟨k, _, _, _, rfl⟩ := resolve_eq_ok_iff.mp h
  have hnodup' : (pass^[k + 1] tree).names.Nodup := by
    rw [names_iterate_pass]
    exact hnodup
  intro leaf hl
  rw [← flatten_eq_leaves hnodup'] at hl
  exact unresolvedNames_eq_nil_iff.mp hu leaf hl

/-- **When resolving is idempotent.**  A resolved tree is resolved to itself exactly if none of its
leaves, hidden ones included, refers to its table; this is so whenever no two leaves have one name.
In the same way, resolving parameters again always succeeds, and keeps their data exactly then. -/
theorem resolve_resolve (cap : Nat) (tree : Tree) :
    (∀ result, tree.resolve cap = .ok result →
      (∃ again, result.resolve cap = .ok again) ∧
      (result.resolve cap = .ok result ↔
        ∀ leaf ∈ result.leaves, referencesIn result.flatten leaf.2 = []) ∧
      (tree.names.Nodup → result.resolve cap = .ok result)) ∧
    (∀ parameters, Parameters.ofTree cap tree = .ok parameters →
      ∃ again, parameters.resolveAgain = .ok again ∧ again.source = parameters.source ∧
        again.cap = parameters.cap ∧
        (again.data = parameters.data ↔
          ∀ leaf ∈ parameters.data.leaves,
            referencesIn parameters.data.flatten leaf.2 = []) ∧
        (tree.names.Nodup → again.data = parameters.data)) := by
  have hpass : ∀ result, tree.resolve cap = .ok result →
      (result.pass = result ↔
        ∀ leaf ∈ result.leaves, referencesIn result.flatten leaf.2 = []) :=
    fun result h => pass_eq_self_iff (standsAt_zero_of_resolve h).2.2
  constructor
  · intro result h
    have hagain := resolve_eq_ok_pass h
    have hiff : result.resolve cap = .ok result ↔
        ∀ leaf ∈ result.leaves, referencesIn result.flatten leaf.2 = [] := by
      rw [hagain, Except.ok.injEq]
      exact hpass result h
    exact ⟨⟨_, hagain⟩, hiff,
      fun hnodup => hiff.mpr (referencesIn_eq_nil_of_resolve hnodup h)⟩
  · intro parameters hp
    cases hres : tree.resolve cap with
    | error cause => simp [Parameters.ofTree, hres] at hp
    | ok data =>
      simp only [Parameters.ofTree, hres, Except.ok.injEq] at hp
      subst hp
      refine ⟨⟨tree, data.pass, cap⟩, ?_, rfl, rfl, hpass data hres, fun hnodup => ?_⟩
      · simp [Parameters.resolveAgain, resolve_eq_ok_pass hres]
      · exact (hpass data hres).mpr (referencesIn_eq_nil_of_resolve hnodup hres)

/-- A leaf whose reference is put together from the text of another one. -/
def composedReference : Tree :=
  .mapping [("a", .mapping [("b", .scalar "$$x")]), ("x", .scalar "y"), ("y", .scalar "3")]

/-- Its leaves have distinct names, so the tree is resolved once and for all. -/
theorem resolve_resolve_distinct :
    ∃ result : Tree, composedReference.names.Nodup ∧
      composedReference.resolve defaultCap = .ok result ∧
      result.resolve defaultCap = .ok result ∧
      Entries.get? result.flatten "a.b" = some "3" := by
  let result : Tree := .mapping [("a", .mapping [("b", .scalar "3")]), ("x", .scalar "y"),
    ("y", .scalar "3")]
  have hnodup : composedReference.names.Nodup := by decide +kernel
  have hres : composedReference.resolve defaultCap = .ok result := by decide +kernel
  have hagain := ((resolve_resolve defaultCap composedReference).1 result hres).2.2 hnodup
  exact ⟨result, hnodup, hres, hagain, by decide +kernel⟩

/-- A mapping in which `a.b` is the name of two leaves, the first one hidden by the second. -/
def hiddenReference : Tree :=
  .mapping [("a", .mapping [("b", .scalar "$$x")]), ("a.b", .scalar "2"), ("x", .scalar "y"),
    ("y", .scalar "3")]

/-- The hidden leaf is `$y` after the first resolution and `3` after the second. -/
theorem resolve_hiddenReference_twice :
    ∃ result, hiddenReference.resolve defaultCap = .ok result ∧
      result.resolve defaultCap ≠ .ok result := by
  refine ⟨.mapping [("a", .mapping [("b", .scalar "$y")]), ("a.b", .scalar "2"),
    ("x", .scalar "y"), ("y", .scalar "3")], ?_, ?_⟩
  · decide +kernel
  · decide +kernel

end Tree

end ConfigTree
