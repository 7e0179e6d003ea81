import ConfigTree.Proofs.Reference.Pass
import Mathlib.Data.Set.Finite.List
import Mathlib.Data.Fintype.Pigeonhole
import Mathlib.Logic.Relation

/-! # References that stand still form a cycle

A text may hold several references and still come out of a pass unchanged, one replacement being
longer than the reference and another one shorter.  `exists_unresolved_of_offset` shows that this
never happens by accident.  Reading the old and the new text in step, the new one is behind, level
or ahead by some characters; it starts level and ends level, so at some reference it stops being
ahead, and the replacement made there contains the whole reference.  Hence each unresolved name of
a standing table refers to an unresolved name, and in a finite table such a walk closes.
-/
namespace ConfigTree
open Relation

/-- Some text of the first name refers to the second one. -/
def Table.Refers (table : Table) (name other : String) : Prop :=
  ∃ text, (name, text) ∈ table ∧ other ∈ referencesIn table text

/-- From the name one comes, by references, to a name that refers back to itself. -/
def Table.ReachesCycle (table : Table) (name : String) : Prop :=
  ∃ other, ReflTransGen table.Refers name other ∧ TransGen table.Refers other other

/-! ### Walks in a finite set -/

/-- In a finite set in which every element has a successor, every walk closes. -/
theorem exists_cycle_of_forall_succ {α : Type} {r : α → α → Prop} {s : Set α} (hs : s.Finite)
    (hsucc : ∀ a ∈ s, ∃ b ∈ s, r a b) {a : α} (ha : a ∈ s) :
    ∃ b, ReflTransGen r a b ∧ TransGen r b b := by
  choose next hmem hr using hsucc
  have : Finite s := hs
  let step : s → s := fun x => ⟨next x.1 x.2, hmem x.1 x.2⟩
  have hwalk : ∀ (d : Nat) (x : s), ReflTransGen r x.1 (step^[d] x).1 := by
    intro d
    induction d with
    | zero => exact fun x => .refl
    | succ d ih => exact fun x => .head (hr x.1 x.2) (ih (step x))
  have hclosed : ∀ i j : Nat, i < j → step^[i] ⟨a, ha⟩ = step^[j] ⟨a, ha⟩ →
      ∃ b, ReflTransGen r a b ∧ TransGen r b b := by
    intro i j hij heq
    obtain ⟨d, rfl⟩ := Nat.exists_eq_add_of_lt hij
    let x := step^[i] ⟨a, ha⟩
    have hback : step^[d] (step x) = x := by
      calc step^[d] (step x) = step^[d + 1 + i] ⟨a, ha⟩ := by
            rw [Function.iterate_add_apply, Function.iterate_succ_apply]
        _ = step^[i + d + 1] ⟨a, ha⟩ := by rw [Nat.add_comm (d + 1) i]; rfl
        _ = x := heq.symm
    have hreturn := hwalk d (step x)
    rw [hback] at hreturn
    exact ⟨x.1, hwalk i ⟨a, ha⟩, TransGen.head' (hr x.1 x.2) hreturn⟩
  obtain ⟨i, j, hne, heq⟩ :=
    Finite.exists_ne_map_eq_of_infinite fun k : Nat => step^[k] (⟨a, ha⟩ : s)
  rcases Nat.lt_or_gt_of_ne hne with hij | hji
  · exact hclosed i j hij heq
  · exact hclosed j i hji heq.symm

/-! ### Texts that stand still -/

/-- **The offset argument.**  If what is rewritten runs into the text with `ahead` characters in
front, then some reference is replaced by a text that holds a reference itself. -/
theorem exists_unresolved_of_offset {table : Table} {text ahead : List Char} {pieces : List Piece}
    (hs : Scanned table text pieces) (h : ahead ++ text = pieces.flatMap Piece.replacement)
    (hne : namesOf pieces ≠ []) :
    ∃ found, .reference found ∈ pieces ∧ namesIn table found.value.toList ≠ [] := by
  induction hs generalizing ahead with
  | nil => exact absurd rfl hne
  | @plain c rest pieces _ _ ih =>
    have hstep : ∃ ahead', ahead' ++ rest = pieces.flatMap Piece.replacement := by
      cases ahead with
      | nil => exact ⟨[], (List.cons.inj h).2⟩
      | cons d ahead =>
        exact ⟨ahead ++ [c], by rw [List.append_assoc]; exact (List.cons.inj h).2⟩
    obtain ⟨ahead', h'⟩ := hstep
    obtain ⟨found, hf, hv⟩ := ih h' hne
    exact ⟨found, List.mem_cons_of_mem _ hf, hv⟩
  | @reference token rest found pieces hm hlen hs ih =>
    -- Does the replacement cover the reference it stands for?
    have hsplit : (ahead ++ '$' :: token) ++ rest =
        found.value.toList ++ pieces.flatMap Piece.replacement := by
      simpa [Piece.replacement] using h
    have hcovered : ∀ more, found.value.toList = (ahead ++ '$' :: token) ++ more →
        (more = [] ∨ more.head? = rest.head?) → namesIn table found.value.toList ≠ [] := by
      intro more hv hmore
      have hmatch := Reference.match?_append hm hlen hmore
      have hfind : namesIn table (ahead ++ '$' :: (token ++ more)) ≠ [] :=
        namesIn_append_ne_nil hmatch
      rwa [hv, List.append_assoc, List.cons_append]
    rcases List.append_eq_append_iff.mp hsplit with ⟨more, hv, hrest⟩ | ⟨ahead', hahead, hrest⟩
    · refine ⟨found, List.mem_cons_self .., hcovered more hv ?_⟩
      cases more with
      | nil => exact Or.inl rfl
      | cons d more => exact Or.inr (by rw [hrest]; rfl)
    · by_cases hlast : ahead' = []
      · subst hlast
        refine ⟨found, List.mem_cons_self .., hcovered [] ?_ (Or.inl rfl)⟩
        simpa using hahead.symm
      · -- The replacement is shorter, so a later one has to make up for it.
        have hlater : namesOf pieces ≠ [] := by
          intro hnone
          have hsame : pieces.flatMap Piece.replacement = rest := by
            rw [← scanned_iff.mp hs] at hnone ⊢
            exact rewritten_eq_self hnone
          rw [hsame] at hrest
          exact hlast (List.append_left_eq_self.mp hrest.symm)
        obtain ⟨found', hf, hv⟩ := ih hrest.symm hlater
        exact ⟨found', List.mem_cons_of_mem _ hf, hv⟩

/-- A text with references that stands still refers to a name whose text holds references. -/
theorem exists_unresolved_of_fixed {table : Table} {text : String}
    (hfixed : substituteText table text = text) (hne : referencesIn table text ≠ []) :
    ∃ name value, name ∈ referencesIn table text ∧ (name, value) ∈ table ∧
      referencesIn table value ≠ [] := by
  have hs := scanned table text.toList
  have hlevel : [] ++ text.toList = (scanFrom table 0 text.toList).flatMap Piece.replacement :=
    (substituteText_eq_iff.mp hfixed).symm
  obtain ⟨found, hf, hv⟩ := exists_unresolved_of_offset hs hlevel hne
  exact ⟨found.name, found.value, mem_namesOf.mpr ⟨found, hf, rfl⟩, hs.mem_table hf, hv⟩

/-- **In a table that stands still, every name with references left comes to a cycle.** -/
theorem Table.reachesCycle_of_unresolved {table : Table}
    (hfixed : ∀ leaf ∈ table, substituteText table leaf.2 = leaf.2) {name : String}
    (hname : name ∈ unresolvedNames table) : table.ReachesCycle name := by
  refine exists_cycle_of_forall_succ (s := { n | n ∈ unresolvedNames table })
    (List.finite_toSet _) ?_ hname
  intro n hn
  obtain ⟨text, hleaf, hne⟩ := mem_unresolvedNames.mp hn
  obtain ⟨other, value, href, hother, hv⟩ := exists_unresolved_of_fixed (hfixed _ hleaf) hne
  exact ⟨other, mem_unresolvedNames.mpr ⟨value, hother, hv⟩, text, hleaf, href⟩

end ConfigTree
