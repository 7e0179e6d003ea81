import ConfigTree.Proofs.Outcome
import ConfigTree.Proofs.Reference.Braced
import ConfigTree.Proofs.Reference.Pass
import ConfigTree.Proofs.Tree.Reordering
import Mathlib.Data.List.Pairwise

/-! # Keys in another order

Where several names of a table fit at one place, the first one counts, so in general the order of
the keys of a tree matters to what its references stand for.  It does not if the keys are words:
then the names of the leaves are words with dots between them, none of which is the beginning of
another one up to a dot, and **at one place at most one of them fits**
(`Reference.eq_of_lengthAt?`).

So tables with the same entries cut every text alike, whatever the order of the entries is
(`scan_perm`), and reordered trees stay reordered in every pass (`Reordered.iterate_pass`).  **They
are resolved alike** (`resolve_reordered`).
-/
namespace ConfigTree

/-- A word of letters, digits and underscores. -/
def IsWord (key : String) : Prop :=
  key ≠ "" ∧ ∀ c ∈ key.toList, Reference.isWordChar c = true

instance (key : String) : Decidable (IsWord key) :=
  decidable_of_iff (key ≠ "" ∧ key.toList.all Reference.isWordChar = true)
    (and_congr_right' List.all_eq_true)

/-- The characters of names whose segments are words. -/
def IsNameChar (c : Char) : Prop := Reference.isWordChar c = true ∨ c = '.'

/-- Names with dots between words, none of which is the beginning of another one up to a dot. -/
structure WordNames (names : List String) : Prop where
  characters : ∀ name ∈ names, ∀ c ∈ name.toList, IsNameChar c
  apart : names.Pairwise Apart

theorem WordNames.perm {names others : List String} (h : WordNames names)
    (hperm : names.Perm others) : WordNames others :=
  ⟨fun name hn => h.characters name (hperm.mem_iff.mpr hn),
    (hperm.pairwise_iff Apart.symm).mp h.apart⟩

theorem WordNames.nodup {names : List String} (h : WordNames names) : names.Nodup := by
  refine h.apart.imp ?_
  rintro name _ hapart rfl
  exact hapart.1 (.refl name)

namespace Reference

/-- A name fits in braces, or where no word goes on behind it. -/
theorem lengthAt?_cases {name body : List Char} (h : (lengthAt? name body).isSome = true) :
    name ≠ [] ∧ ((∃ rest, body = '{' :: (name ++ '}' :: rest)) ∨
      ∃ rest, body = name ++ rest ∧ rest.head?.any isWordChar = false) := by
  unfold lengthAt? at h
  by_cases hempty : name.isEmpty = true
  · rw [if_pos hempty] at h
    cases h
  · rw [if_neg hempty] at h
    refine ⟨by simpa using hempty, ?_⟩
    by_cases hbraced : ('{' :: name ++ ['}']).isPrefixOf body = true
    · obtain ⟨rest, hrest⟩ := List.isPrefixOf_iff_prefix.mp hbraced
      exact .inl ⟨rest, by simp [← hrest]⟩
    · rw [if_neg hbraced] at h
      by_cases hbare : (name.isPrefixOf body &&
          !((body.drop name.length).head?.any isWordChar)) = true
      · obtain ⟨hfront, hend⟩ := (Bool.and_eq_true _ _).mp hbare
        obtain ⟨rest, rfl⟩ := List.isPrefixOf_iff_prefix.mp hfront
        rw [List.drop_left] at hend
        exact .inr ⟨rest, rfl, by simpa using hend⟩
      · rw [if_neg hbare] at h
        cases h

/-- Of two bare names at one place, the longer one goes on with a dot. -/
theorem isBelow_of_append {name other : String} {more rest : List Char}
    (hother : ∀ c ∈ other.toList, IsNameChar c) (heq : other.toList = name.toList ++ more)
    (hend : (more ++ rest).head?.any isWordChar = false) : IsBelow other name := by
  refine ⟨more, heq, ?_⟩
  rcases more with _ | ⟨c, more⟩
  · exact .inl rfl
  · right
    have hc : isWordChar c = false := hend
    rcases hother c (by rw [heq]; simp) with hword | rfl
    · rw [hword] at hc
      cases hc
    · rfl

section Names

variable {names : List String} (h : WordNames names)
include h

theorem eq_of_isBelow {name other : String} (hn : name ∈ names) (ho : other ∈ names)
    (hbelow : IsBelow name other) : name = other := by
  by_contra hne
  have hsymm : Std.Symm Apart := ⟨fun _ _ => Apart.symm⟩
  exact (h.apart.forall hn ho hne).1 hbelow

theorem not_mem_brace {name : String} (hn : name ∈ names) :
    '{' ∉ name.toList ∧ '}' ∉ name.toList := by
  constructor
  all_goals
    intro hc
    rcases h.characters name hn _ hc with hword | hdot
    · cases hword
    · cases hdot

/-- **At one place at most one of the names fits.** -/
theorem eq_of_lengthAt? {name other : String} (hn : name ∈ names) (ho : other ∈ names)
    {body : List Char} (hname : (lengthAt? name.toList body).isSome = true)
    (hother : (lengthAt? other.toList body).isSome = true) : name = other := by
  obtain ⟨hne, hname⟩ := lengthAt?_cases hname
  obtain ⟨hne', hother⟩ := lengthAt?_cases hother
  have hbare : ∀ {name : String} {front back : List Char}, name ∈ names → name.toList ≠ [] →
      '{' :: front ≠ name.toList ++ back := by
    intro name front back hn hne heq
    obtain ⟨c, rest, hcons⟩ := List.exists_cons_of_ne_nil hne
    rw [hcons] at heq
    refine (not_mem_brace h hn).1 ?_
    rw [hcons, (List.cons.inj heq).1]
    exact List.mem_cons_self ..
  rcases hname with ⟨rest, rfl⟩ | ⟨rest, rfl, hend⟩
  · rcases hother with ⟨rest', heq⟩ | ⟨rest', heq, -⟩
    · have hcut : name.toList ++ '}' :: rest = other.toList ++ '}' :: rest' :=
        (List.cons.inj heq).2
      exact String.toList_inj.mp (eq_of_append_stop (not_mem_brace h hn).2 (not_mem_brace h ho).2
        (.inr rfl) (.inr rfl) hcut)
    · exact absurd heq (hbare ho hne')
  · rcases hother with ⟨rest', heq⟩ | ⟨rest', heq, hend'⟩
    · exact absurd heq.symm (hbare hn hne)
    · rcases List.append_eq_append_iff.mp heq with ⟨more, hmore, rfl⟩ | ⟨more, hmore, rfl⟩
      · exact (eq_of_isBelow h ho hn
          (isBelow_of_append (h.characters other ho) hmore hend)).symm
      · exact eq_of_isBelow h hn ho (isBelow_of_append (h.characters name hn) hmore hend')

end Names

/-! ### Tables in another order -/

section Tables

variable {table other : Table} (h : WordNames (Entries.keys table)) (hperm : table.Perm other)
include h

/-- What is found is the one entry that fits. -/
theorem match?_eq_some_iff {body : List Char} {found : Reference} :
    match? table body = some found ↔
      (found.name, found.value) ∈ table ∧
        lengthAt? found.name.toList body = some found.length := by
  refine ⟨match?_spec, fun ⟨hmem, hfits⟩ => ?_⟩
  have hsome : (match? table body).isSome = true :=
    match?_isSome_iff.mpr ⟨_, hmem, by rw [hfits]; rfl⟩
  obtain ⟨first, hfirst⟩ := Option.isSome_iff_exists.mp hsome
  obtain ⟨hmem', hfits'⟩ := match?_spec hfirst
  have hname : first.name = found.name :=
    eq_of_lengthAt? h (List.mem_map_of_mem hmem') (List.mem_map_of_mem hmem)
      (by rw [hfits']; rfl) (by rw [hfits]; rfl)
  rw [hname] at hmem' hfits'
  have hvalue : first.value = found.value :=
    Entries.eq_of_mem h.nodup hmem' hmem
  have hlength : first.length = found.length := Option.some.inj (hfits'.symm.trans hfits)
  rw [hfirst, Option.some.injEq]
  rcases first with ⟨name, value, length⟩
  exact Reference.mk.injEq .. ▸ ⟨hname, hvalue, hlength⟩

include hperm

theorem match?_perm (body : List Char) : match? table body = match? other body := by
  have hother : WordNames (Entries.keys other) := h.perm (hperm.map _)
  apply Option.ext
  intro found
  rw [match?_eq_some_iff h, match?_eq_some_iff hother, hperm.mem_iff]

end Tables

end Reference

section Tables

variable {table other : Table} (h : WordNames (Entries.keys table)) (hperm : table.Perm other)
include h hperm

/-- **The order of the entries does not matter to a scan.** -/
theorem scan_perm : scan table = scan other := by
  have hfrom : ∀ (text : List Char) (skip : Nat),
      scanFrom table skip text = scanFrom other skip text := by
    intro text
    induction text with
    | nil => exact fun skip => by rw [scanFrom, scanFrom]
    | cons c rest ih =>
      intro skip
      rcases skip with _ | skip
      · simp only [scanFrom, Reference.match?_perm h hperm, ih]
      · exact ih skip
  funext text
  exact hfrom text.toList 0

theorem substituteText_perm : substituteText table = substituteText other := by
  funext text
  rw [substituteText, substituteText, scan_perm h hperm]

theorem referencesIn_perm : referencesIn table = referencesIn other := by
  funext text
  rw [referencesIn, referencesIn, scan_perm h hperm]

/-- The same names are unresolved. -/
theorem unresolvedNames_perm : (unresolvedNames table).Perm (unresolvedNames other) := by
  rw [unresolvedNames, unresolvedNames, referencesIn_perm h hperm]
  exact (hperm.filter _).map _

/-- A table stands still or not, whatever the order of its entries. -/
theorem pass_eq_self_perm : table.pass = table ↔ other.pass = other := by
  rw [Table.pass_eq_self_iff, Table.pass_eq_self_iff, substituteText_perm h hperm]
  exact forall_congr' fun leaf => by rw [hperm.mem_iff]

end Tables

/-! ### Reordered trees -/

namespace Tree

theorem wordNames_names {tree : Tree} (hvalid : tree.Valid) (hkeys : tree.AllKeys IsWord) :
    WordNames tree.names := by
  have hdigit : ∀ c : Char, c.isDigit → IsNameChar c := fun c hc => by
    simp [IsNameChar, Reference.isWordChar, Char.isAlphanum, hc]
  have hsegment : ∀ key, IsWord key → IsSegment key := fun key hkey =>
    ⟨hkey.1, fun hdot => absurd (hkey.2 _ hdot) (by decide)⟩
  exact ⟨forall_mem_names (fun key hkey c hc => .inl (hkey.2 c hc)) hdigit (.inr rfl) hkeys,
    apart_names hsegment hvalid hkeys⟩

section Reordered

variable {tree other : Tree} (hreordered : Reordered tree other) (hnames : WordNames tree.names)
include hreordered hnames

/-- The tables have the same entries. -/
theorem flatten_perm : tree.flatten.Perm other.flatten := by
  rw [flatten_eq_leaves hnames.nodup,
    flatten_eq_leaves (hnames.perm hreordered.names_perm).nodup]
  exact hreordered.leaves_perm

omit hreordered in
theorem wordNames_flatten : WordNames (Entries.keys tree.flatten) := by
  rw [flatten_eq_leaves hnames.nodup]
  exact hnames

/-- **A pass keeps trees reordered**, -/
theorem Reordered.pass : Reordered tree.pass other.pass := by
  have hsame := substituteText_perm (wordNames_flatten hnames) (flatten_perm hreordered hnames)
  rw [Tree.pass, Tree.pass, substitute, substitute, hsame]
  exact hreordered.mapLeaves _

/-- and so do all passes. -/
theorem Reordered.iterate_pass (k : Nat) :
    Reordered (Tree.pass^[k] tree) (Tree.pass^[k] other) := by
  induction k with
  | zero => exact hreordered
  | succ k ih =>
    rw [Function.iterate_succ_apply', Function.iterate_succ_apply']
    exact ih.pass (by rwa [names_iterate_pass])

omit hreordered in
theorem wordNames_iterate_pass (k : Nat) : WordNames (Tree.pass^[k] tree).names := by
  rwa [names_iterate_pass]

/-- Both tables stand still in the same passes, -/
theorem Reordered.standsAt_iff (k : Nat) : tree.StandsAt k ↔ other.StandsAt k := by
  have hk := wordNames_iterate_pass hnames k
  rw [Tree.standsAt_iff, Tree.standsAt_iff]
  exact pass_eq_self_perm (wordNames_flatten hk)
    (flatten_perm (hreordered.iterate_pass hnames k) hk)

theorem Reordered.settles_iff (k : Nat) : tree.Settles k ↔ other.Settles k := by
  simp only [Settles, hreordered.standsAt_iff hnames]

/-- and after each pass the same names are unresolved. -/
theorem Reordered.unresolvedNames_perm (k : Nat) :
    (unresolvedNames (Tree.pass^[k] tree).flatten).Perm
      (unresolvedNames (Tree.pass^[k] other).flatten) := by
  have hk := wordNames_iterate_pass hnames k
  exact ConfigTree.unresolvedNames_perm (wordNames_flatten hk)
    (flatten_perm (hreordered.iterate_pass hnames k) hk)

end Reordered

/-- **The order of keys does not matter**, if they are words.  Of two trees that differ in it only,
either both are resolved, and have the same text at every place, or both diverge, after as many
passes and with the same names unresolved. -/
theorem resolve_reordered {tree other : Tree} (valid : tree.Valid) (words : tree.AllKeys IsWord)
    (reordered : Reordered tree other) (cap : Nat) :
    (∃ result result', tree.resolve cap = .ok result ∧ other.resolve cap = .ok result' ∧
        Reordered result result' ∧ ∀ path, result.textAt? path = result'.textAt? path) ∨
      ∃ cause cause', tree.resolve cap = .error cause ∧ other.resolve cap = .error cause' ∧
        cause.iterations = cause'.iterations ∧ cause.unresolved.Perm cause'.unresolved := by
  have hnames := wordNames_names valid words
  have hunresolved := reordered.unresolvedNames_perm hnames
  rcases hresult : tree.resolve cap with cause | result
  · right
    rcases resolve_eq_error_iff.mp hresult with ⟨k, hk, hsettles, hne, rfl⟩ | ⟨hnone, rfl⟩
    · refine ⟨_, ⟨k + 1, unresolvedNames (Tree.pass^[k] other).flatten⟩, rfl, ?_, rfl,
        hunresolved k⟩
      have hne' : unresolvedNames (Tree.pass^[k] other).flatten ≠ [] := fun hnil =>
        hne (List.perm_nil.mp (hnil ▸ hunresolved k))
      exact resolve_eq_error_iff.mpr
        (.inl ⟨k, hk, (reordered.settles_iff hnames k).mp hsettles, hne', rfl⟩)
    · refine ⟨_, ⟨cap, unresolvedNames (Tree.pass^[cap] other).flatten⟩, rfl, ?_, rfl,
        hunresolved cap⟩
      exact resolve_eq_error_iff.mpr
        (.inr ⟨fun k hk hstands => hnone k hk ((reordered.standsAt_iff hnames k).mpr hstands), rfl⟩)
  · left
    obtain ⟨k, hk, hsettles, hnil, rfl⟩ := resolve_eq_ok_iff.mp hresult
    have hresults := reordered.iterate_pass hnames (k + 1)
    have hnil' : unresolvedNames (Tree.pass^[k] other).flatten = [] :=
      List.nil_perm.mp (hnil ▸ hunresolved k)
    refine ⟨_, Tree.pass^[k + 1] other, rfl, ?_, hresults,
      hresults.textAt?_eq (valid.iterate_pass (k + 1))⟩
    exact resolve_eq_ok_iff.mpr ⟨k, hk, (reordered.settles_iff hnames k).mp hsettles, hnil', rfl⟩

/-- Two keys in either order, one of which refers to the other. -/
theorem resolve_reordered_swapped :
    ∃ tree other : Tree,
      tree = .mapping [("rate", .scalar "0.1"), ("steps", .mapping [("first", .scalar "$rate")])] ∧
      other = .mapping [("steps", .mapping [("first", .scalar "$rate")]), ("rate", .scalar "0.1")] ∧
      tree.Valid ∧ tree.AllKeys IsWord ∧ Reordered tree other ∧
      ∃ result, other.resolve defaultCap = .ok result ∧
        result.textAt? [.key "steps", .key "first"] = some "0.1" := by
  let rate : String × Tree := ("rate", .scalar "0.1")
  let steps : String × Tree := ("steps", .mapping [("first", .scalar "$rate")])
  let resolved : Tree :=
    .mapping [("rate", .scalar "0.1"), ("steps", .mapping [("first", .scalar "0.1")])]
  have hvalid : (Tree.mapping [rate, steps]).Valid :=
    ⟨by decide, trivial, ⟨by decide, trivial, trivial⟩, trivial⟩
  have hwords : (Tree.mapping [rate, steps]).AllKeys IsWord := by decide
  have hvalues : ReorderedValues [rate, steps] [rate, steps] :=
    .cons (.scalar _) (.cons (.mapping (.cons (.scalar _) .nil) (.refl _)) .nil)
  have hreordered : Reordered (.mapping [rate, steps]) (.mapping [steps, rate]) :=
    .mapping hvalues (.swap steps rate [])
  have hresolved : (Tree.mapping [rate, steps]).resolve defaultCap = .ok resolved :=
    toOption_eq_some_iff.mp (by decide +kernel)
  refine ⟨_, _, rfl, rfl, hvalid, hwords, hreordered, ?_⟩
  rcases resolve_reordered hvalid hwords hreordered defaultCap with
    ⟨result, result', hresult, hresult', -, htexts⟩ | ⟨cause, _, hcause, -⟩
  · obtain rfl : resolved = result := Except.ok.inj (hresolved.symm.trans hresult)
    exact ⟨result', hresult', (htexts _).symm⟩
  · rw [hresolved] at hcause
    cases hcause

end Tree

end ConfigTree
