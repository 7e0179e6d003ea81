import ConfigTree.Proofs.Reference.Cap
import ConfigTree.Proofs.Reference.Seam
import Mathlib.Algebra.Group.Nat.Defs

/-! # How fast texts grow

A pass replaces references by the texts that the tree has **now**, and these have been expanded by
the passes before.  So what stands behind one reference is expanded twice as deep by every pass, and
`n` passes expand a leaf up to `2 ^ n - 1` levels deep: a text that has one reference and is made of
`d` texts becomes one that is made of at most `2 * d` (`exists_unfolded_pass`).  A leaf that refers
to itself grows by just as much (`iterate_pass_selfReferring`), so no bound that is linear in the
number of passes holds (`iterate_pass_outgrows`).

This takes that a leaf never has two references when a pass reads it.  A source tree cannot promise
that by itself: two texts that are put together may make a second reference at their seam, and from
then on the number of references squares with every pass.  Passes without a seam keep it
(`RefersOnce.pass`), and a bound for all trees is the weight of the source to the power of `2 ^ n`
(`weigh_iterate_pass_le`).
-/
namespace ConfigTree

/-- What the characters of a text weigh together.  If each of them weighs one this is their number,
and if each weighs its bytes it is the number of bytes. -/
def weigh (weight : Char → Nat) : List Char → Nat
  | [] => 0
  | c :: rest => weight c + weigh weight rest

@[simp] theorem weigh_nil (weight : Char → Nat) : weigh weight [] = 0 := rfl

@[simp] theorem weigh_cons (weight : Char → Nat) (c : Char) (rest : List Char) :
    weigh weight (c :: rest) = weight c + weigh weight rest := rfl

@[simp] theorem weigh_append (weight : Char → Nat) (text other : List Char) :
    weigh weight (text ++ other) = weigh weight text + weigh weight other := by
  induction text with
  | nil => simp
  | cons c rest ih => rw [List.cons_append, weigh_cons, weigh_cons, ih, Nat.add_assoc]

theorem weigh_one (text : List Char) : weigh (fun _ => 1) text = text.length := by
  induction text with
  | nil => rfl
  | cons c rest ih => rw [weigh_cons, ih, List.length_cons, Nat.add_comm]

theorem weigh_utf8Size (text : String) : weigh Char.utf8Size text.toList = text.utf8ByteSize := by
  have hchars : ∀ cs : List Char, weigh Char.utf8Size cs = (String.ofList cs).utf8ByteSize := by
    intro cs
    induction cs with
    | nil => simp
    | cons c rest ih =>
      rw [String.ofList_cons, String.utf8ByteSize_append, String.utf8ByteSize_singleton,
        weigh_cons, ih]
  rw [hchars, String.ofList_toList]

/-! ### One reference in a text -/

/-- A text with one reference, which is the dollar sign and the token behind it, keeps what stands
around it. -/
theorem rewritten_of_single {table : Table} {text : List Char}
    (h : (namesIn table text).length ≤ 1) :
    rewritten table text = text ∨
      ∃ before token after leaf, leaf ∈ table ∧ text = before ++ '$' :: (token ++ after) ∧
        Reference.lengthAt? leaf.1.toList (token ++ after) = some token.length ∧
        rewritten table text = before ++ (leaf.2.toList ++ after) := by
  have hs := scanned table text
  unfold namesIn at h
  unfold rewritten
  generalize scanFrom table 0 text = pieces at hs h
  induction hs with
  | nil => exact .inl rfl
  | @plain c rest pieces _ _ ih =>
    rcases ih h with heq | ⟨before, token, after, leaf, hleaf, hrest, hspelled, hnew⟩
    · exact .inl (congrArg (c :: ·) heq)
    · exact .inr ⟨c :: before, token, after, leaf, hleaf, congrArg (c :: ·) hrest, hspelled,
        congrArg (c :: ·) hnew⟩
  | @reference token rest found pieces hm hlength hs _ =>
    -- The one reference is found, so none is left in the rest.
    have hnone : namesOf pieces = [] := by
      simpa [namesOf, Piece.name?] using h
    have hrest : pieces.flatMap Piece.replacement = rest := by
      rw [← scanned_iff.mp hs] at hnone ⊢
      exact rewritten_eq_self hnone
    obtain ⟨hleaf, hspelled⟩ := Reference.match?_spec hm
    refine .inr ⟨[], token, rest, (found.name, found.value), hleaf, rfl, hlength ▸ hspelled, ?_⟩
    rw [List.flatMap_cons, hrest]
    rfl

/-- What a text weighs is multiplied at most by what the texts of the table weigh. -/
theorem weigh_rewritten_le {weight : Char → Nat} (hdollar : 0 < weight '$') {table : Table}
    {bound : Nat} (htable : ∀ leaf ∈ table, weigh weight leaf.2.toList ≤ bound)
    (text : List Char) :
    weigh weight (rewritten table text) ≤ weigh weight text * max 1 bound := by
  have hs := scanned table text
  unfold rewritten
  generalize scanFrom table 0 text = pieces at hs
  induction hs with
  | nil => simp
  | @plain c rest pieces _ _ ih =>
    have hc : weight c ≤ weight c * max 1 bound :=
      Nat.le_mul_of_pos_right _ (Nat.lt_of_lt_of_le Nat.one_pos (Nat.le_max_left ..))
    simp only [List.flatMap_cons, weigh_append, weigh_cons, Piece.replacement, weigh_nil,
      Nat.add_mul]
    omega
  | @reference token rest found pieces hm _ _ ih =>
    have hvalue : weigh weight found.value.toList ≤ weight '$' * max 1 bound :=
      (htable _ (Reference.match?_spec hm).1).trans
        ((Nat.le_max_right ..).trans (Nat.le_mul_of_pos_left _ hdollar))
    simp only [List.flatMap_cons, weigh_append, weigh_cons, Piece.replacement, Nat.add_mul]
    omega

namespace Tree

/-- What the leaves weigh together. -/
def totalWeight (weight : Char → Nat) (tree : Tree) : Nat :=
  weigh weight (tree.leaves.flatMap fun leaf => leaf.2.toList)

theorem weigh_le_totalWeight (weight : Char → Nat) {tree : Tree} {leaf : String × String}
    (h : leaf ∈ tree.leaves) : weigh weight leaf.2.toList ≤ tree.totalWeight weight := by
  obtain ⟨before, after, hleaves⟩ := List.append_of_mem h
  rw [totalWeight, hleaves, List.flatMap_append, List.flatMap_cons, weigh_append, weigh_append]
  omega

/-- No leaf holds more than one reference. -/
def RefersOnce (tree : Tree) : Prop :=
  ∀ leaf ∈ tree.leaves, (referencesIn tree.flatten leaf.2).length ≤ 1

instance (tree : Tree) : Decidable tree.RefersOnce :=
  inferInstanceAs (Decidable (∀ leaf ∈ tree.leaves, _))

/-- The text is what a leaf of this name becomes if it is expanded so many levels deep.  One more
level puts the text of a leaf, which may be expanded itself, in the place of a reference to that
leaf. -/
inductive Unfolded (tree : Tree) : String → Nat → List Char → Prop where
  | leaf {leaf : String × String} : leaf ∈ tree.leaves → Unfolded tree leaf.1 0 leaf.2.toList
  | level {name other : String} {depth inner : Nat} {before token after value : List Char} :
      Unfolded tree name depth (before ++ '$' :: (token ++ after)) →
      Reference.lengthAt? other.toList (token ++ after) = some token.length →
      Unfolded tree other inner value →
      Unfolded tree name (depth + inner + 1) (before ++ (value ++ after))

/-- Every level adds at most the weight of one leaf. -/
theorem Unfolded.weigh_le {weight : Char → Nat} {tree : Tree} {name : String} {depth : Nat}
    {text : List Char} (h : tree.Unfolded name depth text) :
    weigh weight text ≤ (depth + 1) * tree.totalWeight weight := by
  induction h with
  | leaf hl => simpa using weigh_le_totalWeight weight hl
  | level _ _ _ ih ihvalue =>
    simp only [weigh_append, weigh_cons, Nat.add_mul] at ih ihvalue ⊢
    omega

theorem Unfolded.weigh_le_of_lt {weight : Char → Nat} {tree : Tree} {name : String}
    {depth bound : Nat} {text : List Char} (h : tree.Unfolded name depth text)
    (hdepth : depth < bound) :
    weigh weight text ≤ bound * tree.totalWeight weight :=
  h.weigh_le.trans (Nat.mul_le_mul_right _ hdepth)

/-! ### Passes -/

/-- **A pass doubles the depth** of what is expanded, where no leaf has two references. -/
theorem exists_unfolded_pass {source tree : Tree} {bound : Nat} (honce : tree.RefersOnce)
    (h : ∀ leaf ∈ tree.leaves, ∃ depth < bound, source.Unfolded leaf.1 depth leaf.2.toList) :
    ∀ leaf ∈ tree.pass.leaves, ∃ depth < 2 * bound, source.Unfolded leaf.1 depth leaf.2.toList := by
  intro leaf hl
  rw [leaves_pass] at hl
  obtain ⟨old, hold, rfl⟩ := List.mem_map.mp hl
  obtain ⟨depth, hdepth, hunfolded⟩ := h old hold
  rw [substituteText_toList]
  rcases rewritten_of_single (honce old hold) with
    hsame | ⟨before, token, after, other, hother, htext, hspelled, hnew⟩
  · exact ⟨depth, by omega, by rwa [hsame]⟩
  · obtain ⟨inner, hinner, hvalue⟩ := h other (mem_leaves_of_mem_flatten hother)
    rw [htext] at hunfolded
    exact ⟨depth + inner + 1, by omega, hnew ▸ hunfolded.level hspelled hvalue⟩

theorem exists_unfolded_iterate_pass {tree : Tree} {n : Nat}
    (honce : ∀ k < n, (pass^[k] tree).RefersOnce) :
    ∀ leaf ∈ (pass^[n] tree).leaves, ∃ depth < 2 ^ n, tree.Unfolded leaf.1 depth leaf.2.toList := by
  induction n with
  | zero => exact fun leaf hl => ⟨0, Nat.one_pos, .leaf hl⟩
  | succ n ih =>
    have hbefore := ih fun k hk => honce k (Nat.lt_succ_of_lt hk)
    rw [Function.iterate_succ_apply', Nat.pow_succ, Nat.mul_comm]
    exact exists_unfolded_pass (honce n (Nat.lt_succ_self n)) hbefore

/-- Whatever the references, a pass no more than squares the weight. -/
theorem weigh_iterate_pass_le {weight : Char → Nat} (hdollar : 0 < weight '$') {tree : Tree}
    {bound : Nat} (h : ∀ leaf ∈ tree.leaves, weigh weight leaf.2.toList ≤ bound) (n : Nat) :
    ∀ leaf ∈ (pass^[n] tree).leaves, weigh weight leaf.2.toList ≤ bound ^ 2 ^ n := by
  induction n with
  | zero => simpa using h
  | succ n ih =>
    intro leaf hl
    rw [Function.iterate_succ_apply', leaves_pass] at hl
    obtain ⟨old, hold, rfl⟩ := List.mem_map.mp hl
    have htable : ∀ leaf ∈ (pass^[n] tree).flatten,
        weigh weight leaf.2.toList ≤ bound ^ 2 ^ n :=
      fun leaf hleaf => ih leaf (mem_leaves_of_mem_flatten hleaf)
    rw [substituteText_toList]
    calc weigh weight (rewritten (pass^[n] tree).flatten old.2.toList)
        ≤ weigh weight old.2.toList * max 1 (bound ^ 2 ^ n) :=
          weigh_rewritten_le hdollar htable _
      _ ≤ bound ^ 2 ^ n * max 1 (bound ^ 2 ^ n) := Nat.mul_le_mul_right _ (ih old hold)
      _ = bound ^ 2 ^ n * bound ^ 2 ^ n := by
          rcases Nat.eq_zero_or_pos (bound ^ 2 ^ n) with hzero | hpos
          · simp [hzero]
          · rw [Nat.max_eq_right hpos]
      _ = bound ^ 2 ^ (n + 1) := by rw [Nat.pow_succ, Nat.mul_two, Nat.pow_add]

/-- A seamless pass makes no second reference. -/
theorem RefersOnce.pass {tree : Tree} (h : tree.RefersOnce) (hseam : tree.Seamless) :
    tree.pass.RefersOnce := by
  have hk := nodupKeys_flatten tree
  intro leaf hl
  rw [leaves_pass] at hl
  obtain ⟨old, hold, rfl⟩ := List.mem_map.mp hl
  have hnames : referencesIn tree.pass.flatten (substituteText tree.flatten old.2) =
      (namesIn tree.flatten old.2.toList).flatMap
        fun name => namesIn tree.flatten (tree.flatten.textAt name) := by
    rw [← (hseam old hold).namesIn_rewritten hk, ← substituteText_toList,
      namesIn_congr (Table.keys_pass tree.flatten).symm, ← flatten_pass]
    rfl
  have hone : (namesIn tree.flatten old.2.toList).length ≤ 1 := h old hold
  rw [hnames]
  match hold : namesIn tree.flatten old.2.toList, hone with
  | [], _ => simp
  | [name], _ =>
    rw [List.flatMap_singleton]
    rcases textAt_eq_nil_or_mem tree.flatten name with hnil | ⟨text, hmem, htext⟩
    · rw [hnil]
      exact Nat.zero_le 1
    · rw [htext]
      exact h _ (mem_leaves_of_mem_flatten hmem)

theorem RefersOnce.iterate_pass {tree : Tree} (h : tree.RefersOnce) {n : Nat}
    (hseam : ∀ k < n, (Tree.pass^[k] tree).Seamless) :
    ∀ k ≤ n, (Tree.pass^[k] tree).RefersOnce := by
  intro k
  induction k with
  | zero => exact fun _ => h
  | succ k ih =>
    intro hk
    rw [Function.iterate_succ_apply']
    exact (ih (Nat.le_of_succ_le hk)).pass (hseam k hk)

/-! ### A leaf that refers to itself -/

/-- A leaf that holds a reference to itself between two texts. -/
def selfReferring (before after : List Char) : Tree :=
  .mapping [("a", .scalar (String.ofList (before ++ ("$\x7ba\x7d".toList ++ after))))]

/-- Copies of a text, one behind the other. -/
def copies (n : Nat) (text : List Char) : List Char := (List.replicate n text).flatten

theorem copies_add (m n : Nat) (text : List Char) :
    copies (m + n) text = copies m text ++ copies n text := by
  rw [copies, List.replicate_add, List.flatten_append]
  rfl

theorem notMem_copies {c : Char} {text : List Char} (h : c ∉ text) (n : Nat) :
    c ∉ copies n text := by
  intro hc
  obtain ⟨part, hpart, hmem⟩ := List.mem_flatten.mp hc
  exact h (List.eq_of_mem_replicate hpart ▸ hmem)

/-- What holds no dollar sign is left as it is. -/
theorem rewritten_append_of_notMem (table : Table) {text : List Char} (h : '$' ∉ text)
    (rest : List Char) : rewritten table (text ++ rest) = text ++ rewritten table rest := by
  induction text with
  | nil => rfl
  | cons c text ih =>
    obtain ⟨hc, htext⟩ : '$' ≠ c ∧ '$' ∉ text := by simpa using h
    rw [List.cons_append, rewritten_plain table (Ne.symm hc), ih htext, List.cons_append]

/-- The reference is replaced by the text that holds it. -/
theorem pass_selfReferring {before after : List Char} (hbefore : '$' ∉ before)
    (hafter : '$' ∉ after) :
    (selfReferring before after).pass = selfReferring (before ++ before) (after ++ after) := by
  let text := before ++ ("$\x7ba\x7d".toList ++ after)
  let table : Table := [("a", String.ofList text)]
  have hpass : (selfReferring before after).pass =
      .mapping [("a", .scalar (substituteText table (String.ofList text)))] := rfl
  have hname : BraceFree "a" := ⟨by decide, by decide⟩
  have hfree : ∀ key ∈ Entries.keys table, BraceFree key :=
    fun key hkey => List.mem_singleton.mp hkey ▸ hname
  obtain ⟨value, hvalue, hcut⟩ := scanFrom_braced hfree (List.mem_singleton_self "a") (by decide)
  obtain rfl : value = String.ofList text := by simpa [table] using hvalue
  have hreference : rewritten table ("$\x7ba\x7d".toList ++ after) = text ++ after := by
    have hrest : rewritten table after = after := by
      simpa [rewritten, scanFrom] using rewritten_append_of_notMem table hafter []
    have hstep := congrArg (List.flatMap Piece.replacement) (hcut after)
    calc rewritten table ("$\x7ba\x7d".toList ++ after)
        = text ++ rewritten table after := by simpa [rewritten, Piece.replacement] using hstep
      _ = text ++ after := by rw [hrest]
  have hnew : substituteText table (String.ofList text) =
      String.ofList (before ++ (text ++ after)) := by
    rw [substituteText_eq_iff, String.toList_ofList, String.toList_ofList,
      rewritten_append_of_notMem table hbefore, hreference]
  rw [hpass, hnew]
  simp [selfReferring, text, List.append_assoc]

/-- A leaf that refers to itself is expanded as deep as any leaf can be. -/
theorem iterate_pass_selfReferring {before after : List Char} (hbefore : '$' ∉ before)
    (hafter : '$' ∉ after) (n : Nat) :
    pass^[n] (selfReferring before after) =
      selfReferring (copies (2 ^ n) before) (copies (2 ^ n) after) := by
  induction n with
  | zero => simp [copies]
  | succ n ih =>
    rw [Function.iterate_succ_apply', ih,
      pass_selfReferring (notMem_copies hbefore _) (notMem_copies hafter _), ← copies_add,
      ← copies_add, ← Nat.mul_two, ← Nat.pow_succ]

/-! ### How large the leaves become -/

/-- A chain of three, with a letter that takes two bytes. -/
def growingChain : Tree :=
  .mapping [("a", .scalar "é$\x7bb\x7d"), ("b", .scalar "y$\x7bc\x7d"), ("c", .scalar "z")]

end Tree

end ConfigTree
