import ConfigTree.Proofs.Reference.Seam
import Mathlib.Data.Finset.Card

/-! # How many passes it takes

Seamless passes compose references: after a pass, a name refers to what two references led to
before.  So no references arise but along walks of the first table, and no name becomes unresolved
that was not.  Where the first table has no cycle, a pass resolves at least one name for good: if
all unresolved names stayed so, each would refer to an unresolved one, and their walk would close.
Hence as many passes as there are leaves resolve everything (`unresolvedNames_eq_nil`).  Where there
is a cycle, the names on it refer to each other for ever (`unresolvedNames_ne_nil_of_cycle`).
-/
namespace ConfigTree
open Relation

theorem mem_unresolvedNames_iff_refers {table : Table} {name : String} :
    name ∈ unresolvedNames table ↔ ∃ other, table.Refers name other := by
  rw [mem_unresolvedNames]
  constructor
  · rintro ⟨text, hmem, hne⟩
    obtain ⟨other, hother⟩ := List.exists_mem_of_ne_nil _ hne
    exact ⟨other, text, hmem, hother⟩
  · rintro ⟨other, text, hmem, hother⟩
    exact ⟨text, hmem, List.ne_nil_of_mem hother⟩

/-- The names on cycles refer to names on cycles. -/
theorem exists_succ_of_cycle {α : Type} {r : α → α → Prop} {a : α} (h : TransGen r a a) :
    ∃ b, TransGen r b b ∧ r a b := by
  obtain ⟨b, hab, hba⟩ := TransGen.head'_iff.mp h
  exact ⟨b, TransGen.tail' hba hab, hab⟩

section Table
variable {table : Table} (hk : Entries.NodupKeys table)
  (hseam : ∀ k, (Table.pass^[k] table).Seamless)
include hk hseam

theorem unresolvedNames_ne_nil_of_cycle {name : String} (h : TransGen table.Refers name name)
    (n : Nat) : unresolvedNames (Table.pass^[n] table) ≠ [] := by
  have hclosed : ∀ a ∈ { a | TransGen table.Refers a a }, ∃ b ∈ { b | TransGen table.Refers b b },
      (Table.pass^[0] table).Refers a b := by
    intro a ha
    obtain ⟨b, hb, hab⟩ := exists_succ_of_cycle ha
    exact ⟨b, hb, hab⟩
  obtain ⟨other, _, hrefers⟩ :=
    refers_persist hk (Nat.zero_le n) (fun j _ _ => hseam j) hclosed name h
  exact List.ne_nil_of_mem (mem_unresolvedNames_iff_refers.mpr ⟨other, hrefers⟩)

/-- A pass makes no name unresolved. -/
theorem unresolvedNames_succ_subset {k : Nat} {name : String}
    (h : name ∈ unresolvedNames (Table.pass^[k + 1] table)) :
    name ∈ unresolvedNames (Table.pass^[k] table) := by
  obtain ⟨other, hrefers⟩ := mem_unresolvedNames_iff_refers.mp h
  rw [Function.iterate_succ_apply',
    (hseam k).refers_pass (nodupKeys_iterate_pass hk k)] at hrefers
  obtain ⟨between, hfirst, _⟩ := hrefers
  exact mem_unresolvedNames_iff_refers.mpr ⟨between, hfirst⟩

variable (hacyclic : ∀ name, ¬ TransGen table.Refers name name)
include hacyclic

/-- **Without a cycle, a pass resolves a name**, if there is one to resolve. -/
theorem exists_resolved_in_pass {k : Nat} (hne : unresolvedNames (Table.pass^[k] table) ≠ []) :
    ∃ name ∈ unresolvedNames (Table.pass^[k] table),
      name ∉ unresolvedNames (Table.pass^[k + 1] table) := by
  by_contra hall
  obtain ⟨name, hname⟩ := List.exists_mem_of_ne_nil _ hne
  have hsucc : ∀ a ∈ { a | a ∈ unresolvedNames (Table.pass^[k] table) },
      ∃ b ∈ { b | b ∈ unresolvedNames (Table.pass^[k] table) },
        (Table.pass^[k] table).Refers a b := by
    intro a ha
    -- If `a` stays unresolved, what it refers to now is unresolved too.
    have hstays : a ∈ unresolvedNames (Table.pass^[k + 1] table) := by
      by_contra hresolved
      exact hall ⟨a, ha, hresolved⟩
    obtain ⟨other, hrefers⟩ := mem_unresolvedNames_iff_refers.mp hstays
    rw [Function.iterate_succ_apply',
      (hseam k).refers_pass (nodupKeys_iterate_pass hk k)] at hrefers
    obtain ⟨between, hfirst, hsecond⟩ := hrefers
    exact ⟨between, mem_unresolvedNames_iff_refers.mpr ⟨other, hsecond⟩, hfirst⟩
  obtain ⟨other, _, hcycle⟩ := exists_cycle_of_forall_succ (List.finite_toSet _) hsucc hname
  exact hacyclic other (transGen_of_transGen_iterate hk (fun j _ => hseam j) hcycle)

/-- The unresolved names that are left after some passes, and the passes, are together no more
than the names. -/
theorem card_unresolvedNames_add_le {k : Nat}
    (hne : unresolvedNames (Table.pass^[k] table) ≠ []) :
    (unresolvedNames (Table.pass^[k] table)).toFinset.card + k ≤ table.length := by
  induction k with
  | zero =>
    refine (List.toFinset_card_le _).trans ?_
    simpa [unresolvedNames] using List.length_filter_le _ table
  | succ k ih =>
    have hbefore : unresolvedNames (Table.pass^[k] table) ≠ [] := by
      obtain ⟨name, hname⟩ := List.exists_mem_of_ne_nil _ hne
      exact List.ne_nil_of_mem (unresolvedNames_succ_subset hk hseam hname)
    have hfewer : (unresolvedNames (Table.pass^[k + 1] table)).toFinset ⊂
        (unresolvedNames (Table.pass^[k] table)).toFinset := by
      obtain ⟨name, hname, hresolved⟩ := exists_resolved_in_pass hk hseam hacyclic hbefore
      refine Finset.ssubset_iff_subset_ne.mpr ⟨fun a ha => ?_, fun heq => ?_⟩
      · rw [List.mem_toFinset] at ha ⊢
        exact unresolvedNames_succ_subset hk hseam ha
      · rw [← List.mem_toFinset, ← heq, List.mem_toFinset] at hname
        exact hresolved hname
    have hcard := Finset.card_lt_card hfewer
    have hle := ih hbefore
    omega

/-- **Without a cycle, as many passes as there are names resolve everything.** -/
theorem unresolvedNames_eq_nil : unresolvedNames (Table.pass^[table.length] table) = [] := by
  by_contra hne
  have hle := card_unresolvedNames_add_le hk hseam hacyclic hne
  obtain ⟨name, hname⟩ := List.exists_mem_of_ne_nil _ hne
  have hpos : 0 < (unresolvedNames (Table.pass^[table.length] table)).toFinset.card :=
    Finset.card_pos.mpr ⟨name, List.mem_toFinset.mpr hname⟩
  omega

end Table

/-! ### Runs of seamless passes -/

namespace Tree
variable {tree : Tree} (hseam : ∀ k, (Table.pass^[k] tree.flatten).Seamless)
include hseam

/-- **Without a cycle**, a tree is resolved by more passes than it has names. -/
theorem resolve_of_acyclic (hacyclic : ∀ name, ¬ TransGen tree.flatten.Refers name name)
    {cap : Nat} (hcap : tree.flatten.length < cap) : ∃ result, tree.resolve cap = .ok result := by
  have hdone : unresolvedNames (pass^[tree.flatten.length] tree).flatten = [] := by
    rw [flatten_iterate_pass]
    exact unresolvedNames_eq_nil (nodupKeys_flatten tree) hseam hacyclic
  exact exists_resolve_of_unresolvedNames_eq_nil hdone hcap

/-- **With a cycle**, no cap is enough. -/
theorem resolve_of_cycle {name : String} (h : TransGen tree.flatten.Refers name name) (cap : Nat) :
    ∃ cause, tree.resolve cap = .error cause := by
  cases hres : tree.resolve cap with
  | error cause => exact ⟨cause, rfl⟩
  | ok result =>
    obtain ⟨k, _, _, hu, _⟩ := resolve_eq_ok_iff.mp hres
    rw [flatten_iterate_pass] at hu
    exact absurd hu (unresolvedNames_ne_nil_of_cycle (nodupKeys_flatten tree) hseam h k)

end Tree

end ConfigTree
