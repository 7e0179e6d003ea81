import ConfigTree.Proofs.Reference.Pass

/-! # What the cap decides

A run makes the passes `pass^[k] tree` one after the other, and the cap only says after which of
them it is broken off.  So a run that comes to a standstill has one outcome under every cap that
lets it come there, and every other run fails with its cap (`resolve_under_caps`).

A standstill shows only in the pass after the last one that changed anything, so a run succeeds if
nothing is left to resolve *before* the last pass that is allowed (`exists_resolve_succ_iff`).  A
cap that allows no more passes than the references take is too small by one: the run fails although
nothing is left to resolve, and names no leaf (`resolve_lastPass`).  This is the only way in which a
failure names none (`unresolved_eq_nil_iff`).
-/
namespace ConfigTree
namespace Tree

variable {tree : Tree} {cap : Nat} {cause : Divergence}

/-! ### One run under all caps -/

/-- A run has one first standstill. -/
theorem Settles.unique {k j : Nat} (hk : tree.Settles k) (hj : tree.Settles j) : k = j :=
  Nat.le_antisymm (Nat.le_of_not_lt fun h => hk.2 j h hj.1)
    (Nat.le_of_not_lt fun h => hj.2 k h hk.1)

theorem settled_eq {made : Nat} {next : Tree} :
    settled made next = if unresolvedNames next.flatten = [] then .ok next
      else .error ⟨made, unresolvedNames next.flatten⟩ := by
  unfold settled
  cases unresolvedNames next.flatten with
  | nil => rfl
  | cons name rest => rfl

/-- **The cap decides only whether a run is broken off.**  If the table of the leaves stands still
in the pass after the first `k`, and in none before, then every cap above `k` gives the same
outcome, a success or a failure after `k + 1` passes, and every other cap fails after as many passes
as it allows.  If the table never stands still, every cap fails in this way.  So a larger cap makes
no failure of a success, and does not change the tree. -/
theorem resolve_under_caps (tree : Tree) :
    (∀ k, tree.Settles k →
      (∀ cap > k, tree.resolve cap =
        if unresolvedNames (pass^[k + 1] tree).flatten = [] then .ok (pass^[k + 1] tree)
        else .error ⟨k + 1, unresolvedNames (pass^[k + 1] tree).flatten⟩) ∧
      ∀ cap ≤ k, tree.resolve cap = .error ⟨cap, unresolvedNames (pass^[cap] tree).flatten⟩) ∧
    ((∀ k, ¬ tree.StandsAt k) →
      ∀ cap, tree.resolve cap = .error ⟨cap, unresolvedNames (pass^[cap] tree).flatten⟩) ∧
    ((∃! k, tree.Settles k) ∨ ∀ k, ¬ tree.StandsAt k) ∧
    ∀ cap result, tree.resolve cap = .ok result →
      ∀ other ≥ cap, tree.resolve other = .ok result := by
  refine ⟨fun k hk => ⟨fun cap hcap => ?_, fun cap hcap => ?_⟩, fun hnone cap => ?_, ?_, ?_⟩
  · rw [resolve_of_settles hcap hk, settled_eq]
  · exact resolve_of_not_standsAt fun j hj => hk.2 j (Nat.lt_of_lt_of_le hj hcap)
  · exact resolve_of_not_standsAt fun k _ => hnone k
  · by_cases h : ∃ k, tree.StandsAt k
    · obtain ⟨k, hk⟩ := h
      obtain ⟨j, -, hj⟩ := exists_settles hk
      exact .inl ⟨j, hj, fun i hi => hi.unique hj⟩
    · exact .inr fun k hk => h ⟨k, hk⟩
  · intro cap result h other hle
    obtain ⟨k, hk, hrest⟩ := resolve_eq_ok_iff.mp h
    exact resolve_eq_ok_iff.mpr ⟨k, Nat.lt_of_lt_of_le hk hle, hrest⟩

/-- A chain of references. -/
def referenceChain : Tree :=
  .mapping [("a", .scalar "$b"), ("b", .scalar "$c"), ("c", .scalar "1")]

/-- The chain stands still in the third pass, so it is resolved by a cap of three or more, and a
smaller one breaks it off. -/
theorem resolve_under_caps_chain :
    referenceChain.Settles 2 ∧ referenceChain.resolve 2 = .error ⟨2, []⟩ ∧
    referenceChain.resolve 1 = .error ⟨1, ["a"]⟩ ∧
    (∀ cap ≥ 3, referenceChain.resolve cap =
      .ok (.mapping [("a", .scalar "1"), ("b", .scalar "1"), ("c", .scalar "1")])) ∧
    ∀ cap ≥ 3, referenceChain.resolve cap = referenceChain.resolve 3 := by
  have hsettles : referenceChain.Settles 2 := by decide +kernel
  obtain ⟨hrun, -, -, hmore⟩ := resolve_under_caps referenceChain
  obtain ⟨-, hbroken⟩ := hrun 2 hsettles
  have hdone : referenceChain.resolve 3 =
      .ok (.mapping [("a", .scalar "1"), ("b", .scalar "1"), ("c", .scalar "1")]) := by
    decide +kernel
  refine ⟨hsettles, (hbroken 2 (by decide)).trans (by decide +kernel),
    (hbroken 1 (by decide)).trans (by decide +kernel), hmore 3 _ hdone, fun cap hcap => ?_⟩
  rw [hmore 3 _ hdone cap hcap, hdone]

/-! ### What a failure names -/

/-- A failure names what is left unresolved in the tree that its passes lead to. -/
theorem unresolved_eq (h : tree.resolve cap = .error cause) :
    cause.iterations ≤ cap ∧
      cause.unresolved = unresolvedNames (pass^[cause.iterations] tree).flatten := by
  rcases resolve_eq_error_iff.mp h with ⟨k, hk, hs, -, rfl⟩ | ⟨-, rfl⟩
  · exact ⟨hk, congrArg unresolvedNames hs.1.symm⟩
  · exact ⟨Nat.le_refl _, rfl⟩

/-- Where no two leaves have one name, the unresolved names are those of the leaves that refer to
the table. -/
theorem unresolvedNames_flatten (h : tree.names.Nodup) :
    unresolvedNames tree.flatten =
      (tree.leaves.filter fun leaf =>
        !(referencesIn tree.flatten leaf.2).isEmpty).map Prod.fst := by
  rw [unresolvedNames, flatten_eq_leaves h]

/-- **A cap is enough exactly if nothing is left to resolve before the last pass it allows**: it
takes one pass to see that nothing changes. -/
theorem exists_resolve_succ_iff :
    (∃ result, tree.resolve (cap + 1) = .ok result) ↔
      unresolvedNames (pass^[cap] tree).flatten = [] := by
  constructor
  · rintro ⟨result, hresult⟩
    obtain ⟨k, hk, hs, hu, -⟩ := resolve_eq_ok_iff.mp hresult
    rw [hs.1.flatten_eq (Nat.le_of_lt_succ hk)]
    exact hu
  · exact fun hdone => exists_resolve_of_unresolvedNames_eq_nil hdone (Nat.lt_succ_self cap)

/-- A failure that names no leaf comes from a last pass that resolves the last reference. -/
theorem unresolved_eq_nil_iff (h : tree.resolve (cap + 1) = .error cause) :
    cause.unresolved = [] ↔
      cause.iterations = cap + 1 ∧ unresolvedNames (pass^[cap + 1] tree).flatten = [] ∧
        unresolvedNames (pass^[cap] tree).flatten ≠ [] := by
  constructor
  · intro hnil
    rcases resolve_eq_error_iff.mp h with ⟨k, -, -, hu, rfl⟩ | ⟨hnone, rfl⟩
    · exact absurd hnil hu
    · refine ⟨rfl, hnil, fun hdone => ?_⟩
      exact hnone cap (Nat.lt_succ_self cap) (standsAt_of_unresolvedNames_eq_nil hdone)
  · rintro ⟨hall, hdone, -⟩
    rw [(unresolved_eq h).2, hall]
    exact hdone

/-- **What a failure names.**  With a cap of one or more, a failure names in the order of the table
the leaves that hold references in the tree after the passes it reports.  They are none exactly if
the last pass that was allowed has resolved the last reference; for a run succeeds exactly if
nothing was left to resolve before the last pass that is allowed. -/
theorem resolve_failure_names (cap : Nat) (tree : Tree) :
    (∀ cause, tree.resolve (cap + 1) = .error cause →
      cause.iterations ≤ cap + 1 ∧
      cause.unresolved = unresolvedNames (pass^[cause.iterations] tree).flatten ∧
      (tree.names.Nodup → cause.unresolved =
        ((pass^[cause.iterations] tree).leaves.filter fun leaf =>
          !(referencesIn (pass^[cause.iterations] tree).flatten leaf.2).isEmpty).map Prod.fst) ∧
      (cause.unresolved = [] ↔
        cause.iterations = cap + 1 ∧ unresolvedNames (pass^[cap + 1] tree).flatten = [] ∧
          unresolvedNames (pass^[cap] tree).flatten ≠ [])) ∧
    ((∃ result, tree.resolve (cap + 1) = .ok result) ↔
      unresolvedNames (pass^[cap] tree).flatten = []) := by
  refine ⟨fun cause h => ?_, exists_resolve_succ_iff⟩
  obtain ⟨hle, hnames⟩ := unresolved_eq h
  refine ⟨hle, hnames, fun hnodup => ?_, unresolved_eq_nil_iff h⟩
  rw [hnames, unresolvedNames_flatten (names_iterate_pass tree _ ▸ hnodup)]

/-- Of a chain of three, one pass leaves one reference, and two leave none. -/
theorem resolve_failure_names_chain :
    referenceChain.resolve 1 = .error ⟨1, ["a"]⟩ ∧ referenceChain.resolve 2 = .error ⟨2, []⟩ ∧
    ((referenceChain.pass.leaves.filter fun leaf =>
      !(referencesIn referenceChain.pass.flatten leaf.2).isEmpty).map Prod.fst = ["a"]) ∧
    unresolvedNames (pass^[2] referenceChain).flatten = [] ∧
    unresolvedNames (pass^[1] referenceChain).flatten ≠ [] ∧
    (¬ ∃ result, referenceChain.resolve 2 = .ok result) ∧
    ∃ result, referenceChain.resolve 3 = .ok result := by
  have hone : referenceChain.resolve 1 = .error ⟨1, ["a"]⟩ := by decide +kernel
  have htwo : referenceChain.resolve 2 = .error ⟨2, []⟩ := by decide +kernel
  have hnodup : referenceChain.names.Nodup := by decide +kernel
  obtain ⟨-, -, hnames, -⟩ := (resolve_failure_names 0 referenceChain).1 _ hone
  obtain ⟨-, -, -, hnone⟩ := (resolve_failure_names 1 referenceChain).1 _ htwo
  obtain ⟨-, hdone, hbefore⟩ := hnone.mp rfl
  exact ⟨hone, htwo, (hnames hnodup).symm, hdone, hbefore,
    fun hok => hbefore ((resolve_failure_names 1 referenceChain).2.mp hok),
    (resolve_failure_names 2 referenceChain).2.mpr hdone⟩

/-- One pass puts the text of `a` in the place of the only reference; a cap of one fails, and names
no leaf. -/
theorem resolve_lastPass :
    ∃ tree : Tree, tree = .mapping [("a", .scalar "1"), ("b", .scalar "$a")] ∧
      tree.pass = .mapping [("a", .scalar "1"), ("b", .scalar "1")] ∧
      (∀ leaf ∈ tree.pass.leaves, referencesIn tree.pass.flatten leaf.2 = []) ∧
      tree.resolve 1 = .error ⟨1, []⟩ ∧ tree.resolve 2 = .ok tree.pass := by
  refine ⟨_, rfl, ?_, ?_, ?_, ?_⟩ <;> decide +kernel

end Tree

end ConfigTree
