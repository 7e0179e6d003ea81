import ConfigTree.Proofs.Reference.Replacement

/-! # One name after the other

There is another way to make a pass: for each name of the table in turn, every reference to it is
replaced in the whole text, and what was put in for earlier names counts as text (`textInTurn`).  It
is not the pass that resolving makes.  A text that was put in may refer to a name that comes later,
so one pass in turn does the work of several; and where two names fit at one place, the name that is
replaced first takes it, which need not be the one that the scan finds there.

Again everything depends on seams.  If replacing one name cuts the new text where its parts are
(`SeamlessFor`), the replacement makes no difference to what the final table makes of the text
(`SeamlessFor.rewritten_eq`).  So no pass in turn does, and a tree at which these passes stand
still is full of final texts: **both kinds of passes come to the same tree**
(`resolve_eq_inTurn_of_seamless`).
-/
namespace ConfigTree
open Relation

/-- The length after the dollar sign of a reference to the name at the start of `body`.  The name
may be empty here. -/
def Reference.spelledAt? (name body : List Char) : Option Nat :=
  if ('{' :: name ++ ['}']).isPrefixOf body then some (name.length + 2)
  else if name.isPrefixOf body && !((body.drop name.length).head?.any isWordChar) then
    some name.length
  else none

/-- The text with each reference to the name replaced; the first `skip` characters belong to the
reference just replaced. -/
def replaceName (name value : List Char) : Nat → List Char → List Char
  | _, [] => []
  | skip + 1, _ :: rest => replaceName name value skip rest
  | 0, c :: rest =>
    if c = '$' then
      match Reference.spelledAt? name rest with
      | some length => value ++ replaceName name value length rest
      | none => c :: replaceName name value 0 rest
    else c :: replaceName name value 0 rest

/-- The text with the names replaced one after the other. -/
def textInTurn (entries : Table) (text : List Char) : List Char :=
  entries.foldl (fun text leaf => replaceName leaf.1.toList leaf.2.toList 0 text) text

/-- A pass over a table in which each text has the names of the table replaced in turn. -/
def Table.passInTurn (table : Table) : Table :=
  Entries.mapValues (fun text => String.ofList (textInTurn table text.toList)) table

namespace Tree

/-- Replaces the names of the leaves in every leaf, one after the other. -/
def passInTurn (tree : Tree) : Tree :=
  tree.mapLeaves fun _ text => String.ofList (textInTurn tree.flatten text.toList)

/-- The table of the leaves stands still in the pass in turn after the first `k`. -/
def StandsInTurnAt (tree : Tree) (k : Nat) : Prop :=
  (passInTurn^[k + 1] tree).flatten = (passInTurn^[k] tree).flatten

instance (tree : Tree) (k : Nat) : Decidable (tree.StandsInTurnAt k) :=
  inferInstanceAs (Decidable (_ = _))

end Tree

/-! ### One name -/

/-- What a piece is replaced by in the turn of a name, cut on its own. -/
def Piece.cutFor (table : Table) (name value : String) : Piece → List Piece
  | .plain c => [.plain c]
  | .reference found =>
    if found.name = name then scanFrom table 0 value.toList else [.reference found]

/-- In the turn of the name, the new text is cut where its parts are: the references to other names
stay, and each text that was put in is cut as it would be on its own. -/
def SeamlessFor (table : Table) (name value : String) (text : List Char) : Prop :=
  scanFrom table 0 (replaceName name.toList value.toList 0 text) =
    (scanFrom table 0 text).flatMap (Piece.cutFor table name value)

instance (table : Table) (name value : String) (text : List Char) :
    Decidable (SeamlessFor table name value text) :=
  inferInstanceAs (Decidable (_ = _))

namespace SeamlessFor

variable {table : Table} {name value : String} {text : List Char}
  (h : SeamlessFor table name value text)
include h

theorem shapes_eq :
    shapes table (replaceName name.toList value.toList 0 text) =
      (shapes table text).flatMap (Sum.elim (fun c => [.inl c])
        fun other => if other = name then shapes table value.toList else [.inr other]) := by
  unfold SeamlessFor at h
  rw [shapes, h, shapes.eq_def table text, List.map_flatMap, List.flatMap_map]
  refine List.flatMap_congr fun piece _ => ?_
  cases piece with
  | plain c => rfl
  | reference found =>
    by_cases hname : found.name = name
    · simp [Piece.cutFor, Piece.shape, hname, shapes]
    · simp [Piece.cutFor, Piece.shape, hname]

/-- After its turn a name is referred to only by what was put in for it. -/
theorem mem_namesIn {other : String} :
    other ∈ namesIn table (replaceName name.toList value.toList 0 text) ↔
      other ∈ namesIn table text ∧ other ≠ name ∨
        name ∈ namesIn table text ∧ other ∈ namesIn table value.toList := by
  simp only [mem_namesIn_iff]
  rw [h.shapes_eq, List.mem_flatMap]
  constructor
  · rintro ⟨c | between, hshape, hother⟩
    · simp at hother
    · by_cases hname : between = name
      · subst hname
        exact .inr ⟨hshape, by simpa using hother⟩
      · have heq : other = between := by simpa [hname] using hother
        exact .inl ⟨heq ▸ hshape, heq ▸ hname⟩
  · rintro (⟨hother, hne⟩ | ⟨hname, hother⟩)
    · exact ⟨.inr other, hother, by simp [hne]⟩
    · exact ⟨.inr name, hname, by simpa using hother⟩

/-- **The turn of a name makes no difference to what a later table makes of the text**, if it makes
its own text of the text that is put in. -/
theorem rewritten_eq {later : Table} (hk : Entries.NodupKeys later)
    (hkeys : Entries.keys later = Entries.keys table)
    (hvalue : rewritten later value.toList = later.textAt name) :
    rewritten later (replaceName name.toList value.toList 0 text) = rewritten later text := by
  rw [rewritten_eq_fill hk, rewritten_eq_fill hk, shapes_congr hkeys, shapes_congr hkeys,
    h.shapes_eq, fill, fill, List.flatMap_assoc]
  refine List.flatMap_congr fun shape _ => ?_
  cases shape with
  | inl c => rfl
  | inr other =>
    by_cases hname : other = name
    · rw [rewritten_eq_fill hk, shapes_congr hkeys] at hvalue
      simpa [hname, fill] using hvalue
    · simp [hname]

end SeamlessFor

/-! ### All names in turn -/

/-- No turn reads a reference across a seam. -/
def SeamlessInTurn (table : Table) : Table → List Char → Prop
  | [], _ => True
  | (name, value) :: rest, text =>
    SeamlessFor table name value text ∧
      SeamlessInTurn table rest (replaceName name.toList value.toList 0 text)

/-- Turns without a seam can be decided. -/
def decSeamlessInTurn (table : Table) :
    (entries : Table) → (text : List Char) → Decidable (SeamlessInTurn table entries text)
  | [], _ => isTrue trivial
  | (_, _) :: rest, _ => @instDecidableAnd _ _ inferInstance (decSeamlessInTurn table rest _)

instance (table entries : Table) (text : List Char) :
    Decidable (SeamlessInTurn table entries text) :=
  decSeamlessInTurn table entries text

namespace SeamlessInTurn

variable {table entries : Table} {text : List Char}

theorem rewritten_eq {later : Table} (hk : Entries.NodupKeys later)
    (hkeys : Entries.keys later = Entries.keys table) (h : SeamlessInTurn table entries text)
    (hvalues : ∀ leaf ∈ entries, rewritten later leaf.2.toList = later.textAt leaf.1) :
    rewritten later (textInTurn entries text) = rewritten later text := by
  induction entries generalizing text with
  | nil => rfl
  | cons leaf rest ih =>
    obtain ⟨hfor, hrest⟩ := h
    obtain ⟨hvalue, hvalues⟩ := List.forall_mem_cons.mp hvalues
    have hstep := ih hrest hvalues
    rw [hfor.rewritten_eq hk hkeys hvalue] at hstep
    exact hstep

/-- What a text refers to after all turns could be reached from it before. -/
theorem reflTransGen_of_mem (h : SeamlessInTurn table entries text)
    (hsub : ∀ leaf ∈ entries, leaf ∈ table) {other : String}
    (hother : other ∈ namesIn table (textInTurn entries text)) :
    ∃ between ∈ namesIn table text, ReflTransGen table.Refers between other := by
  induction entries generalizing text with
  | nil => exact ⟨other, hother, .refl⟩
  | cons leaf rest ih =>
    obtain ⟨hfor, hrest⟩ := h
    obtain ⟨hleaf, hsub⟩ := List.forall_mem_cons.mp hsub
    obtain ⟨between, hbetween, hreach⟩ := ih hrest hsub hother
    rcases hfor.mem_namesIn.mp hbetween with ⟨hbetween, -⟩ | ⟨hname, hvalue⟩
    · exact ⟨between, hbetween, hreach⟩
    · exact ⟨leaf.1, hname, .head ⟨leaf.2, hleaf, hvalue⟩ hreach⟩

/-- Names that refer to nothing are gone after their turns. -/
theorem mem_and_not_mem_keys (h : SeamlessInTurn table entries text)
    (hvalues : ∀ leaf ∈ entries, leaf.1 ∈ namesIn table text → namesIn table leaf.2.toList = [])
    {other : String} (hother : other ∈ namesIn table (textInTurn entries text)) :
    other ∈ namesIn table text ∧ other ∉ Entries.keys entries := by
  induction entries generalizing text with
  | nil => exact ⟨hother, nofun⟩
  | cons leaf rest ih =>
    obtain ⟨hfor, hrest⟩ := h
    obtain ⟨hvalue, hvalues⟩ := List.forall_mem_cons.mp hvalues
    have hstep : ∀ name, name ∈ namesIn table (replaceName leaf.1.toList leaf.2.toList 0 text) →
        name ∈ namesIn table text ∧ name ≠ leaf.1 := by
      intro name hname
      rcases hfor.mem_namesIn.mp hname with hkept | ⟨hleaf, hput⟩
      · exact hkept
      · rw [hvalue hleaf] at hput
        cases hput
    obtain ⟨hnew, hnotin⟩ := ih hrest (fun leaf hl hn => hvalues leaf hl (hstep _ hn).1) hother
    obtain ⟨hold, hne⟩ := hstep other hnew
    exact ⟨hold, fun hkeys => (List.mem_cons.mp hkeys).elim hne hnotin⟩

theorem namesIn_eq_nil (h : SeamlessInTurn table table text)
    (hvalues : ∀ leaf ∈ table, leaf.1 ∈ namesIn table text → namesIn table leaf.2.toList = []) :
    namesIn table (textInTurn table text) = [] := by
  rw [List.eq_nil_iff_forall_not_mem]
  intro other hother
  exact (h.mem_and_not_mem_keys hvalues hother).2 (namesIn_subset_keys hother)

/-- A later table that makes its own texts of the texts of a table does not see the turns. -/
theorem rewritten_textInTurn {later : Table} (hk : Entries.NodupKeys table)
    (hlater : Entries.NodupKeys later) (hkeys : Entries.keys later = Entries.keys table)
    (h : SeamlessInTurn table table text)
    (hvalues : ∀ name, rewritten later (table.textAt name) = later.textAt name) :
    rewritten later (textInTurn table text) = rewritten later text := by
  refine h.rewritten_eq hlater hkeys fun leaf hl => ?_
  rw [← textAt_of_mem hk hl]
  exact hvalues leaf.1

end SeamlessInTurn

/-! ### Passes in turn over a table -/

theorem textInTurn_nil (entries : Table) : textInTurn entries [] = [] := by
  induction entries with
  | nil => rfl
  | cons leaf rest ih => exact ih

theorem seamlessInTurn_nil (table entries : Table) : SeamlessInTurn table entries [] := by
  induction entries with
  | nil => trivial
  | cons leaf rest ih => exact ⟨rfl, ih⟩

/-- No text of the table is read across a seam in a pass in turn. -/
def Table.SeamlessInTurn (table : Table) : Prop :=
  ∀ leaf ∈ table, ConfigTree.SeamlessInTurn table table leaf.2.toList

namespace Table

@[simp] theorem keys_passInTurn (table : Table) :
    Entries.keys table.passInTurn = Entries.keys table := Entries.keys_mapValues ..

theorem keys_iterate_passInTurn (table : Table) (k : Nat) :
    Entries.keys (passInTurn^[k] table) = Entries.keys table := by
  induction k with
  | zero => rfl
  | succ k ih => rw [Function.iterate_succ_apply', keys_passInTurn, ih]

theorem keys_iterate_pass_eq_inTurn (table : Table) (n m : Nat) :
    Entries.keys (pass^[n] table) = Entries.keys (passInTurn^[m] table) := by
  rw [keys_iterate_pass, keys_iterate_passInTurn]

/-- A pass in turn replaces all names in the text of every name. -/
theorem textAt_passInTurn (table : Table) (name : String) :
    table.passInTurn.textAt name = textInTurn table (table.textAt name) := by
  unfold textAt passInTurn
  rw [Entries.get?_mapValues]
  cases Entries.get? table name with
  | none => simp [textInTurn_nil]
  | some text => simp

theorem SeamlessInTurn.textAt {table : Table} (h : table.SeamlessInTurn) (name : String) :
    ConfigTree.SeamlessInTurn table table (table.textAt name) := by
  rcases textAt_eq_nil_or_mem table name with hnil | ⟨text, hmem, htext⟩
  · rw [hnil]
    exact seamlessInTurn_nil table table
  · rw [htext]
    exact h _ hmem

theorem nodupKeys_iterate_passInTurn {table : Table} (hk : Entries.NodupKeys table) (k : Nat) :
    Entries.NodupKeys (passInTurn^[k] table) := by
  unfold Entries.NodupKeys
  rw [keys_iterate_passInTurn]
  exact hk

/-- **A pass in turn makes no new ways from name to name.** -/
theorem SeamlessInTurn.transGen_of_refers {table : Table} (h : table.SeamlessInTurn)
    (hk : Entries.NodupKeys table) {name other : String}
    (hrefers : table.passInTurn.Refers name other) : TransGen table.Refers name other := by
  have hnext : Entries.NodupKeys table.passInTurn := nodupKeys_iterate_passInTurn hk 1
  rw [refers_iff hnext, textAt_passInTurn, namesIn_congr (keys_passInTurn table)] at hrefers
  obtain ⟨between, hbetween, hreach⟩ := (h.textAt name).reflTransGen_of_mem (fun _ hl => hl) hrefers
  exact TransGen.head' ((refers_iff hk).mpr hbetween) hreach

/-- **Where passes in turn stand still, no reference is left**, unless there is a cycle: a name that
refers only to names without references has lost its own ones. -/
theorem SeamlessInTurn.namesIn_eq_nil {table : Table} (h : table.SeamlessInTurn)
    (hk : Entries.NodupKeys table) (hwf : WellFounded fun other name => table.Refers name other)
    (hstands : table.passInTurn = table) (name : String) :
    namesIn table (table.textAt name) = [] := by
  induction name using hwf.induction with
  | _ name ih =>
    have hgone := (h.textAt name).namesIn_eq_nil fun leaf hl hname => by
      rw [← textAt_of_mem hk hl]
      exact ih leaf.1 ((refers_iff hk).mpr hname)
    rwa [← textAt_passInTurn, hstands] at hgone

end Table

/-! ### Runs -/

namespace Tree

/-- **A pass in turn over a tree is one over its table.** -/
theorem flatten_passInTurn (tree : Tree) : tree.passInTurn.flatten = tree.flatten.passInTurn := by
  unfold flatten passInTurn
  rw [leaves_mapLeaves]
  exact Entries.ofList_mapValues
    (fun text : String => String.ofList (textInTurn tree.flatten text.toList)) tree.leaves

theorem flatten_iterate_passInTurn (tree : Tree) (k : Nat) :
    (passInTurn^[k] tree).flatten = Table.passInTurn^[k] tree.flatten :=
  Function.Semiconj.iterate_right flatten_passInTurn k tree

theorem leaves_passInTurn (tree : Tree) :
    tree.passInTurn.leaves = tree.leaves.map fun leaf =>
      (leaf.1, String.ofList (textInTurn tree.flatten leaf.2.toList)) :=
  leaves_mapLeaves ..

/-- No leaf is read across a seam in a pass in turn. -/
def SeamlessInTurn (tree : Tree) : Prop :=
  ∀ leaf ∈ tree.leaves, ConfigTree.SeamlessInTurn tree.flatten tree.flatten leaf.2.toList

instance (tree : Tree) : Decidable tree.SeamlessInTurn :=
  inferInstanceAs (Decidable (∀ leaf ∈ tree.leaves, _))

/-- The tables of seamless passes in turn over a tree are seamless. -/
theorem SeamlessInTurn.flatten_iterate {tree : Tree} {k : Nat}
    (h : (passInTurn^[k] tree).SeamlessInTurn) :
    (Table.passInTurn^[k] tree.flatten).SeamlessInTurn := by
  rw [← flatten_iterate_passInTurn]
  exact fun leaf hl => h leaf (mem_leaves_of_mem_flatten hl)

end Tree

section Run

variable {table : Table} (hk : Entries.NodupKeys table) {n : Nat}
  (hseam : ∀ k < n, (Table.pass^[k] table).Seamless)
  (hdone : unresolvedNames (Table.pass^[n] table) = [])
include hk hseam hdone

/-- A table that can be resolved without seams has no cycle. -/
theorem wellFounded_refers : WellFounded fun other name => table.Refers name other :=
  ⟨forall_of_refers hk hseam hdone (Nat.zero_le n) fun name hothers => ⟨name, hothers⟩⟩

variable {m : Nat} (hturn : ∀ k < m, (Table.passInTurn^[k] table).SeamlessInTurn)
include hturn

/-- Passes in turn open no cycle. -/
theorem wellFounded_refers_iterate_passInTurn :
    WellFounded fun other name => (Table.passInTurn^[m] table).Refers name other := by
  induction m with
  | zero => exact wellFounded_refers hk hseam hdone
  | succ m ih =>
    have hwf := ih fun k hkm => hturn k (Nat.lt_succ_of_lt hkm)
    refine Subrelation.wf (fun {other name} hrefers => ?_) hwf.transGen
    rw [Function.iterate_succ_apply'] at hrefers
    exact transGen_swap.mp ((hturn m (Nat.lt_succ_self m)).transGen_of_refers
      (Table.nodupKeys_iterate_passInTurn hk m) hrefers)

/-- **The final table takes the texts of every table in turn to the final texts.** -/
theorem rewritten_textAt_iterate_passInTurn (name : String) :
    rewritten (Table.pass^[n] table) ((Table.passInTurn^[m] table).textAt name) =
      (Table.pass^[n] table).textAt name := by
  induction m generalizing name with
  | zero => exact rewritten_textAt_of_done hk hseam hdone (Nat.zero_le n) name
  | succ m ih =>
    have hsame := ih fun k hkm => hturn k (Nat.lt_succ_of_lt hkm)
    have htext := (hturn m (Nat.lt_succ_self m)).textAt name
    rw [Function.iterate_succ_apply', Table.textAt_passInTurn,
      htext.rewritten_textInTurn (Table.nodupKeys_iterate_passInTurn hk m)
        (nodupKeys_iterate_pass hk n) (Table.keys_iterate_pass_eq_inTurn table n m) hsame, hsame]

end Run

namespace Tree

theorem substitute_passInTurn {tree : Tree} {table : Table}
    (h : ∀ leaf ∈ tree.leaves,
      rewritten table (textInTurn tree.flatten leaf.2.toList) = rewritten table leaf.2.toList) :
    tree.passInTurn.substitute table = tree.substitute table := by
  unfold substitute passInTurn
  rw [mapLeaves_mapLeaves, mapLeaves_eq_iff]
  intro leaf hl
  rw [substituteText_eq_iff, substituteText_toList, String.toList_ofList]
  exact h leaf hl

/-- A tree whose leaves refer to nothing has nothing put in. -/
theorem substitute_eq_self {tree : Tree} {table : Table}
    (h : ∀ leaf ∈ tree.leaves, namesIn table leaf.2.toList = []) : tree.substitute table = tree :=
  mapLeaves_eq_self_iff.mpr fun leaf hl => substituteText_eq_iff.mpr (rewritten_eq_self (h leaf hl))

section Run

variable {tree : Tree} {n m : Nat} (hseam : ∀ k < n, (pass^[k] tree).Seamless)
  (hdone : unresolvedNames (pass^[n] tree).flatten = [])
include hseam hdone

/-- Passes in turn make no difference to what the final table makes of the leaves. -/
theorem substitute_iterate_passInTurn (hturn : ∀ k < m, (passInTurn^[k] tree).SeamlessInTurn) :
    (passInTurn^[m] tree).substitute (pass^[n] tree).flatten =
      tree.substitute (pass^[n] tree).flatten := by
  have hk := nodupKeys_flatten tree
  have htables := seamless_iterate_flatten hseam
  rw [flatten_iterate_pass] at hdone ⊢
  induction m with
  | zero => rfl
  | succ m ih =>
    have hearlier : ∀ k < m, (passInTurn^[k] tree).SeamlessInTurn :=
      fun k hkm => hturn k (Nat.lt_succ_of_lt hkm)
    have hturns : ∀ k < m, (Table.passInTurn^[k] tree.flatten).SeamlessInTurn :=
      fun k hkm => (hearlier k hkm).flatten_iterate
    rw [Function.iterate_succ_apply', ← ih hearlier]
    refine substitute_passInTurn fun leaf hl => ?_
    have htext := hturn m (Nat.lt_succ_self m) leaf hl
    rw [flatten_iterate_passInTurn] at htext ⊢
    exact htext.rewritten_textInTurn (Table.nodupKeys_iterate_passInTurn hk m)
      (nodupKeys_iterate_pass hk n) (Table.keys_iterate_pass_eq_inTurn _ n m)
      (rewritten_textAt_iterate_passInTurn hk htables hdone hturns)

/-- Where passes in turn stand still, no leaf refers to anything. -/
theorem namesIn_eq_nil_of_standsInTurnAt
    (hturn : ∀ k ≤ m, (passInTurn^[k] tree).SeamlessInTurn) (hs : tree.StandsInTurnAt m) :
    ∀ leaf ∈ (passInTurn^[m + 1] tree).leaves,
      namesIn (pass^[n] tree).flatten leaf.2.toList = [] := by
  have hk := nodupKeys_flatten tree
  have htables := seamless_iterate_flatten hseam
  have hturns : ∀ k ≤ m, (Table.passInTurn^[k] tree.flatten).SeamlessInTurn :=
    fun k hkm => (hturn k hkm).flatten_iterate
  rw [StandsInTurnAt, Function.iterate_succ_apply', flatten_passInTurn,
    flatten_iterate_passInTurn] at hs
  rw [flatten_iterate_pass] at hdone ⊢
  have hwf := wellFounded_refers_iterate_passInTurn hk htables hdone
    fun k hkm => hturns k (Nat.le_of_lt hkm)
  have hclean := (hturns m (Nat.le_refl m)).namesIn_eq_nil
    (Table.nodupKeys_iterate_passInTurn hk m) hwf hs
  intro leaf hl
  rw [Function.iterate_succ_apply', leaves_passInTurn] at hl
  obtain ⟨source, hsource, rfl⟩ := List.mem_map.mp hl
  have htext := hturn m (Nat.le_refl m) source hsource
  rw [flatten_iterate_passInTurn] at htext
  rw [String.toList_ofList, flatten_iterate_passInTurn,
    namesIn_congr (Table.keys_iterate_pass_eq_inTurn _ n m)]
  refine htext.namesIn_eq_nil fun entry he _ => ?_
  rw [← textAt_of_mem (Table.nodupKeys_iterate_passInTurn hk m) he]
  exact hclean entry.1

end Run

/-- **Both kinds of passes come to the same tree**, if no pass of either run reads a reference
across a seam. -/
theorem resolve_eq_inTurn_of_seamless {cap m : Nat} {tree result : Tree}
    (h : tree.resolve cap = .ok result)
    (hseam : ∀ k < cap, ¬ tree.StandsAt k → (pass^[k] tree).Seamless)
    (hturn : ∀ k ≤ m, (passInTurn^[k] tree).SeamlessInTurn) (hs : tree.StandsInTurnAt m) :
    passInTurn^[m + 1] tree = result := by
  have hresult := eq_substitute_of_seamless h hseam
  obtain ⟨n, hn, hsettles, hdone, rfl⟩ := resolve_eq_ok_iff.mp h
  have hearlier : ∀ k < n, (pass^[k] tree).Seamless :=
    fun k hk => hseam k (Nat.lt_trans hk hn) (hsettles.2 k hk)
  rw [hsettles.1] at hresult
  calc passInTurn^[m + 1] tree
      = (passInTurn^[m + 1] tree).substitute (pass^[n] tree).flatten :=
        (substitute_eq_self (namesIn_eq_nil_of_standsInTurnAt hearlier hdone hturn hs)).symm
    _ = tree.substitute (pass^[n] tree).flatten :=
        substitute_iterate_passInTurn hearlier hdone fun k hkm => hturn k (Nat.le_of_lt_succ hkm)
    _ = pass^[n + 1] tree := hresult.symm

end Tree

end ConfigTree
