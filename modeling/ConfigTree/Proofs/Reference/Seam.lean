import ConfigTree.Proofs.Reference.Braced
import ConfigTree.Proofs.Reference.Cycle

/-! # Rewriting without a seam

A pass puts texts in the place of references, and the next pass reads the result as one text.  It
may then find a reference that lies across a **seam**, part of it in a text that was put in and
part of it outside; then the leaf is no longer what its source text says.  A text is rewritten
seamlessly (`Seamless`) if the cut of the new text is put together from the cuts of its parts.

* In a seamless pass, the new references of a name are those of the names it referred to
  (`Seamless.refers_pass`), so passes neither open a cycle nor close one.
* If all passes but the last are seamless, the resolved tree is the source tree with every reference
  replaced by the final text (`pass_eq_substitute`).  The induction goes backwards from the last
  pass; in each step, a name that fails would refer to a name that fails, and such a set of names
  would still refer to itself in the end (`forall_of_refers`).
-/
namespace ConfigTree
open Relation

/-- The cut of what a piece is replaced by. -/
def Piece.cutAgain (table : Table) : Piece → List Piece
  | .plain c => [.plain c]
  | .reference found => scanFrom table 0 found.value.toList

/-- The rewritten text is cut where its parts are: each text that was put in is cut as it would be
on its own, and no reference lies across a seam. -/
def Seamless (table : Table) (text : List Char) : Prop :=
  scanFrom table 0 (rewritten table text) =
    (scanFrom table 0 text).flatMap (Piece.cutAgain table)

instance (table : Table) (text : List Char) : Decidable (Seamless table text) :=
  inferInstanceAs (Decidable (_ = _))

/-- All texts of the table are rewritten seamlessly. -/
def Table.Seamless (table : Table) : Prop :=
  ∀ leaf ∈ table, ConfigTree.Seamless table leaf.2.toList

/-- All leaves of the tree are rewritten seamlessly in a pass. -/
def Tree.Seamless (tree : Tree) : Prop :=
  ∀ leaf ∈ tree.leaves, ConfigTree.Seamless tree.flatten leaf.2.toList

instance (tree : Tree) : Decidable tree.Seamless :=
  inferInstanceAs (Decidable (∀ leaf ∈ tree.leaves, _))

theorem Tree.Seamless.flatten {tree : Tree} (h : tree.Seamless) : tree.flatten.Seamless :=
  fun leaf hl => h leaf (mem_leaves_of_mem_flatten hl)

theorem Table.Seamless.textAt {table : Table} (h : table.Seamless) (name : String) :
    ConfigTree.Seamless table (table.textAt name) := by
  rcases textAt_eq_nil_or_mem table name with hnil | ⟨text, hmem, htext⟩
  · rw [hnil]
    rfl
  · rw [htext]
    exact h _ hmem

theorem namesIn_textAt_eq_nil {table : Table} (h : unresolvedNames table = []) (name : String) :
    namesIn table (table.textAt name) = [] := by
  rcases textAt_eq_nil_or_mem table name with hnil | ⟨text, hmem, htext⟩
  · rw [hnil]
    rfl
  · rw [htext]
    exact unresolvedNames_eq_nil_iff.mp h _ hmem

/-! ### One seamless pass -/

section Pass
variable {table : Table} (hk : Entries.NodupKeys table)
include hk

theorem refers_iff {name other : String} :
    table.Refers name other ↔ other ∈ namesIn table (table.textAt name) := by
  constructor
  · rintro ⟨text, hmem, href⟩
    rw [textAt_of_mem hk hmem]
    exact href
  · intro h
    rcases textAt_eq_nil_or_mem table name with hnil | ⟨text, hmem, htext⟩
    · rw [hnil] at h
      cases h
    · rw [htext] at h
      exact ⟨text, hmem, h⟩

/-- Without seams, the shape of the new text is put together from the shapes of its parts. -/
theorem Seamless.shapes_rewritten {text : List Char} (h : Seamless table text) :
    shapes table (rewritten table text) =
      (shapes table text).flatMap
        (Sum.elim (fun c => [.inl c]) fun name => shapes table (table.textAt name)) := by
  unfold Seamless at h
  rw [shapes, h, shapes, List.map_flatMap, List.flatMap_map]
  refine List.flatMap_congr fun piece hp => ?_
  cases piece with
  | plain c => rfl
  | reference found =>
    simp only [Piece.cutAgain, Piece.shape, Sum.elim_inr]
    rw [textAt_of_mem hk ((scanned table text).mem_table hp)]
    rfl

/-- **Two passes in one**: rewriting again fills the first cut with the texts rewritten again. -/
theorem Seamless.rewritten_rewritten {text : List Char} (h : Seamless table text) {later : Table}
    (hk' : Entries.NodupKeys later) (hkeys : Entries.keys later = Entries.keys table) :
    rewritten later (rewritten table text) =
      fill (fun name => rewritten later (table.textAt name)) (shapes table text) := by
  rw [rewritten_eq_fill hk', shapes_congr hkeys, h.shapes_rewritten hk, fill, fill,
    List.flatMap_assoc]
  refine List.flatMap_congr fun shape _ => ?_
  cases shape with
  | inl c => rfl
  | inr name =>
    rw [Sum.elim_inr, Sum.elim_inr, rewritten_eq_fill hk', shapes_congr hkeys]
    rfl

/-- The new text refers to what the names it referred to refer to. -/
theorem Seamless.namesIn_rewritten {text : List Char} (h : Seamless table text) :
    namesIn table (rewritten table text) =
      (namesIn table text).flatMap fun name => namesIn table (table.textAt name) := by
  rw [namesIn_eq_shapes, h.shapes_rewritten hk, List.filterMap_flatMap, namesIn_eq_shapes,
    List.filterMap_eq_flatMap_toList _ (shapes table text), List.flatMap_assoc]
  refine List.flatMap_congr fun shape _ => ?_
  cases shape with
  | inl c => rfl
  | inr name => simpa using (namesIn_eq_shapes ..).symm

theorem Seamless.mem_namesIn_rewritten {text : List Char} (h : Seamless table text)
    {name : String} :
    name ∈ namesIn table (rewritten table text) ↔
      ∃ between ∈ namesIn table text, name ∈ namesIn table (table.textAt between) := by
  rw [h.namesIn_rewritten hk, List.mem_flatMap]

theorem nodupKeys_pass : Entries.NodupKeys table.pass := by
  unfold Entries.NodupKeys
  rw [Table.keys_pass]
  exact hk

/-- **After a seamless pass a name refers to what the names it referred to referred to.** -/
theorem Table.Seamless.refers_pass (h : table.Seamless) {name other : String} :
    table.pass.Refers name other ↔
      ∃ between, table.Refers name between ∧ table.Refers between other := by
  rw [refers_iff (nodupKeys_pass hk), Table.textAt_pass, namesIn_congr (Table.keys_pass table),
    (h.textAt name).mem_namesIn_rewritten hk]
  simp only [refers_iff hk]

end Pass

/-! ### A run of seamless passes -/

section Run
variable {table : Table} (hk : Entries.NodupKeys table)
include hk

theorem nodupKeys_iterate_pass (k : Nat) : Entries.NodupKeys (Table.pass^[k] table) := by
  unfold Entries.NodupKeys
  rw [Table.keys_iterate_pass]
  exact hk

/-- **A set of names that refers to itself stays one**, so it never comes to an end. -/
theorem refers_persist {k n : Nat} (hkn : k ≤ n)
    (hseam : ∀ j, k ≤ j → j < n → (Table.pass^[j] table).Seamless) {s : Set String}
    (hs : ∀ name ∈ s, ∃ other ∈ s, (Table.pass^[k] table).Refers name other) :
    ∀ name ∈ s, ∃ other ∈ s, (Table.pass^[n] table).Refers name other := by
  induction n, hkn using Nat.le_induction with
  | base => exact hs
  | succ n hkn ih =>
    have hclosed := ih fun j hkj hjn => hseam j hkj (Nat.lt_succ_of_lt hjn)
    intro name hname
    obtain ⟨between, hbetween, hfirst⟩ := hclosed name hname
    obtain ⟨other, hother, hsecond⟩ := hclosed between hbetween
    refine ⟨other, hother, ?_⟩
    rw [Function.iterate_succ_apply',
      (hseam n hkn (Nat.lt_succ_self n)).refers_pass (nodupKeys_iterate_pass hk n)]
    exact ⟨between, hfirst, hsecond⟩

/-- **The references of a later table are walks of the first one.** -/
theorem transGen_of_refers_iterate {k : Nat} (hseam : ∀ j < k, (Table.pass^[j] table).Seamless)
    {name other : String} (h : (Table.pass^[k] table).Refers name other) :
    TransGen table.Refers name other := by
  induction k generalizing name other with
  | zero => exact .single h
  | succ k ih =>
    rw [Function.iterate_succ_apply',
      (hseam k (Nat.lt_succ_self k)).refers_pass (nodupKeys_iterate_pass hk k)] at h
    obtain ⟨between, hfirst, hsecond⟩ := h
    have hearlier := fun j (hj : j < k) => hseam j (Nat.lt_succ_of_lt hj)
    exact (ih hearlier hfirst).trans (ih hearlier hsecond)

/-- A cycle of a later table is one of the first table. -/
theorem transGen_of_transGen_iterate {k : Nat}
    (hseam : ∀ j < k, (Table.pass^[j] table).Seamless) {name other : String}
    (h : TransGen (Table.pass^[k] table).Refers name other) : TransGen table.Refers name other :=
  TransGen.closed (fun _ _ hab => transGen_of_refers_iterate hk hseam hab) _ _ h

variable {n : Nat} (hseam : ∀ k < n, (Table.pass^[k] table).Seamless)
  (hdone : unresolvedNames (Table.pass^[n] table) = [])
include hseam hdone

/-- **Induction along references**: where a run comes to its end, what holds of a name as soon as it
holds of the names that the name refers to holds of all names. -/
theorem forall_of_refers {k : Nat} (hkn : k ≤ n) {p : String → Prop}
    (h : ∀ name, (∀ other, (Table.pass^[k] table).Refers name other → p other) → p name) :
    ∀ name, p name := by
  intro name
  by_contra hfails
  -- A name that fails refers to a name that fails, and it still does so in the end.
  have hclosed : ∀ a ∈ { a | ¬ p a }, ∃ b ∈ { b | ¬ p b }, (Table.pass^[k] table).Refers a b := by
    intro a ha
    by_contra hnone
    refine ha (h a fun b hab => ?_)
    by_contra hb
    exact hnone ⟨b, hb, hab⟩
  obtain ⟨other, _, hrefers⟩ :=
    refers_persist hk hkn (fun j _ hj => hseam j hj) hclosed name hfails
  rw [refers_iff (nodupKeys_iterate_pass hk n), namesIn_textAt_eq_nil hdone] at hrefers
  cases hrefers

/-- Resolving with the last table takes the texts of every earlier table to the last ones. -/
theorem rewritten_textAt_of_done {k : Nat} (hkn : k ≤ n) (name : String) :
    rewritten (Table.pass^[n] table) ((Table.pass^[k] table).textAt name) =
      (Table.pass^[n] table).textAt name := by
  induction hkn using Nat.decreasingInduction generalizing name with
  | self => exact rewritten_eq_self (namesIn_textAt_eq_nil hdone name)
  | of_succ k hkn ih =>
    have hnow := nodupKeys_iterate_pass hk k
    have hlast := nodupKeys_iterate_pass hk n
    have hkeys := Table.keys_iterate_pass_eq table n k
    -- What the last text of a name is, seen from table `k`.
    have hfinal : ∀ p, (Table.pass^[n] table).textAt p =
        fill (fun q => rewritten (Table.pass^[n] table) ((Table.pass^[k] table).textAt q))
          (shapes (Table.pass^[k] table) ((Table.pass^[k] table).textAt p)) := by
      intro p
      have hnext := ih p
      rw [Function.iterate_succ_apply', Table.textAt_pass,
        ((hseam k hkn).textAt p).rewritten_rewritten hnow hlast hkeys] at hnext
      exact hnext.symm
    revert name
    refine forall_of_refers hk hseam hdone (Nat.le_of_lt hkn) fun p hothers => ?_
    rw [hfinal p, rewritten_eq_fill hlast, shapes_congr hkeys]
    refine fill_congr fun q hq => ?_
    exact (hothers q ((refers_iff hnow).mpr (mem_namesIn_iff.mpr hq))).symm

/-- A seamless pass makes no difference to what the last table makes of a text. -/
theorem rewritten_rewritten_of_done {k : Nat} (hkn : k < n) {text : List Char}
    (htext : Seamless (Table.pass^[k] table) text) :
    rewritten (Table.pass^[n] table) (rewritten (Table.pass^[k] table) text) =
      rewritten (Table.pass^[n] table) text := by
  have hnow := nodupKeys_iterate_pass hk k
  have hlast := nodupKeys_iterate_pass hk n
  have hkeys := Table.keys_iterate_pass_eq table n k
  rw [htext.rewritten_rewritten hnow hlast hkeys, rewritten_eq_fill hlast, shapes_congr hkeys]
  exact fill_congr fun name _ => rewritten_textAt_of_done hk hseam hdone (Nat.le_of_lt hkn) name

end Run

namespace Tree

/-- The tables of seamless passes over a tree are seamless. -/
theorem seamless_iterate_flatten {tree : Tree} {n : Nat}
    (h : ∀ k < n, (pass^[k] tree).Seamless) :
    ∀ k < n, (Table.pass^[k] tree.flatten).Seamless := by
  intro k hkn
  rw [← flatten_iterate_pass]
  exact (h k hkn).flatten

theorem substitute_pass {tree : Tree} {table : Table}
    (h : ∀ leaf ∈ tree.leaves,
      rewritten table (rewritten tree.flatten leaf.2.toList) = rewritten table leaf.2.toList) :
    tree.pass.substitute table = tree.substitute table := by
  unfold substitute pass substitute
  rw [mapLeaves_mapLeaves, mapLeaves_eq_iff]
  intro leaf hl
  rw [substituteText_eq_iff, substituteText_toList, substituteText_toList]
  exact h leaf hl

/-- **Seamless passes put the final texts into the source.** -/
theorem pass_eq_substitute {tree : Tree} {n : Nat} (hseam : ∀ k < n, (pass^[k] tree).Seamless)
    (hdone : unresolvedNames (pass^[n] tree).flatten = []) :
    (pass^[n] tree).pass = tree.substitute (pass^[n] tree).flatten := by
  have hk := nodupKeys_flatten tree
  have htables := seamless_iterate_flatten hseam
  have hdone' : unresolvedNames (Table.pass^[n] tree.flatten) = [] := by
    rw [← flatten_iterate_pass]
    exact hdone
  have hsame : ∀ k ≤ n, (pass^[k] tree).substitute (pass^[n] tree).flatten =
      tree.substitute (pass^[n] tree).flatten := by
    intro k
    induction k with
    | zero => exact fun _ => rfl
    | succ k ih =>
      intro hkn
      rw [← ih (Nat.le_of_succ_le hkn), Function.iterate_succ_apply']
      refine substitute_pass fun leaf hl => ?_
      have htext := hseam k hkn leaf hl
      rw [flatten_iterate_pass] at htext
      rw [flatten_iterate_pass, flatten_iterate_pass]
      exact rewritten_rewritten_of_done hk htables hdone' hkn htext
  exact hsame n (Nat.le_refl n)

end Tree

end ConfigTree
