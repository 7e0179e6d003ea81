import ConfigTree.Proofs.Reference.InTurn
import ConfigTree.Proofs.Reference.KeyOrder

/-! # References that stay apart

A condition on the source of a tree under which no pass reads a reference across a seam.  A braced
reference to a name whose text ends for itself may stand anywhere.  Every other reference must be
followed by nothing, or by a character that neither goes on with a word nor starts a reference: a
bare one, and one to a **loose** name, whose text may end in a reference of this kind.  A bare name
must be the only one that fits at its place (`Sole`).

Texts of this form (`Clear`) are cut alike wherever they may stand (`Clear.scanFrom_append`), and
stay of this form when texts of this form are put in, for all names at once
(`Clear.rewritten_seamless`) or for one name (`Clear.replaceName_seamless`).  So **both kinds of
passes come to the same tree** (`resolve_eq_inTurn`).  Without the condition they need not: where
`$a` is put in front of `-b`, and both `a` and `a-b` are names, a scan finds the name that comes
first in the table, while in turn the one is put in before the other is there to be seen
(`resolve_ne_inTurn`).
-/
namespace ConfigTree

/-! ### Where a reference ends -/

/-- Does the text end a bare name in front of it, and will it still do so after a pass? -/
def Stops (rest : List Char) : Prop :=
  ∀ c, rest.head? = some c → c ≠ '$' ∧ Reference.isWordChar c = false

instance (rest : List Char) : Decidable (Stops rest) :=
  decidable_of_iff (rest.head?.all fun c => c ≠ '$' ∧ Reference.isWordChar c = false) <| by
    cases rest <;> simp [Stops]

/-- The other name begins with the name, and no word goes on there. -/
def BeginsWith (other name : String) : Prop :=
  name.toList <+: other.toList ∧
    (other.toList.drop name.toList.length).head?.any Reference.isWordChar = false

instance (other name : String) : Decidable (BeginsWith other name) :=
  inferInstanceAs (Decidable (_ ∧ _))

/-- Where the bare name fits, no other one of the names does. -/
def Sole (names : List String) (name : String) : Prop :=
  ∀ other ∈ names, BeginsWith other name ∨ BeginsWith name other → other = name

instance (names : List String) (name : String) : Decidable (Sole names name) :=
  inferInstanceAs (Decidable (∀ other ∈ names, _))

/-- A name that can be told from the signs of references. -/
structure ClearName (name : String) : Prop where
  ne_empty : name ≠ ""
  dollarFree : '$' ∉ name.toList
  braceFree : BraceFree name

instance (name : String) : Decidable (ClearName name) :=
  decidable_of_iff (name ≠ "" ∧ '$' ∉ name.toList ∧ '{' ∉ name.toList ∧ '}' ∉ name.toList)
    ⟨fun h => ⟨h.1, h.2.1, h.2.2⟩, fun h => ⟨h.ne_empty, h.dollarFree, h.braceFree⟩⟩

/-- How a name is written behind a dollar sign. -/
inductive SpelledName (names : List String) (name : String) : List Char → Prop where
  | braced : SpelledName names name ('{' :: (name.toList ++ ['}']))
  | bare : Sole names name → SpelledName names name name.toList

theorem BeginsWith.of_append {name other : String} {more rest : List Char}
    (heq : other.toList = name.toList ++ more)
    (hend : (more ++ rest).head?.any Reference.isWordChar = false) : BeginsWith other name := by
  refine ⟨⟨more, heq.symm⟩, ?_⟩
  rw [heq, List.drop_left]
  cases more with
  | nil => rfl
  | cons c more => exact hend

theorem Stops.not_word {rest : List Char} (h : Stops rest) :
    rest.head?.any Reference.isWordChar = false := by
  cases rest with
  | nil => rfl
  | cons c rest => exact (h c rfl).2

section Reference

variable {names : List String} (hnames : ∀ name ∈ names, ClearName name)
include hnames

theorem SpelledName.dollarFree {name : String} {token : List Char}
    (h : SpelledName names name token) (hname : name ∈ names) : '$' ∉ token := by
  have hfree := (hnames name hname).dollarFree
  cases h with
  | braced => simp [hfree]
  | bare _ => exact hfree

theorem lengthAt?_bare {name other : String} (hname : name ∈ names) (hother : other ∈ names)
    (hsole : Sole names name) {rest : List Char}
    (hrest : rest.head?.any Reference.isWordChar = false) :
    Reference.lengthAt? other.toList (name.toList ++ rest) =
      if other = name then some name.toList.length else none := by
  have hclear := hnames name hname
  have hbrace : ∀ front, '{' :: front ≠ name.toList ++ rest := fun front heq =>
    hclear.braceFree.not_prefix_brace hclear.ne_empty front ⟨rest, heq.symm⟩
  by_cases heq : other = name
  · subst heq
    rw [if_pos rfl, Reference.lengthAt?, if_neg (by simpa using hclear.ne_empty), if_neg, if_pos]
    · simp [hrest]
    · rw [List.isPrefixOf_iff_prefix]
      rintro ⟨tail, ht⟩
      exact hbrace _ ht
  · rw [if_neg heq, ← Option.not_isSome_iff_eq_none]
    intro hfits
    obtain ⟨-, ⟨tail, hbraced⟩ | ⟨tail, hbare, htail⟩⟩ := Reference.lengthAt?_cases hfits
    · exact hbrace _ hbraced.symm
    · rcases List.append_eq_append_iff.mp hbare with ⟨more, hmore, rfl⟩ | ⟨more, hmore, rfl⟩
      · exact heq (hsole other hother (.inl (.of_append hmore hrest)))
      · exact heq (hsole other hother (.inr (.of_append hmore htail)))

/-- At a reference its name fits, and no other one. -/
theorem SpelledName.lengthAt? {name other : String} {token rest : List Char}
    (h : SpelledName names name token) (hname : name ∈ names) (hother : other ∈ names)
    (hrest : token = name.toList → rest.head?.any Reference.isWordChar = false) :
    Reference.lengthAt? other.toList (token ++ rest) =
      if other = name then some token.length else none := by
  have hclear := hnames name hname
  cases h with
  | braced =>
    have hfits := Reference.lengthAt?_braced hclear.braceFree (hnames other hother).braceFree
      hclear.ne_empty rest
    simpa using hfits
  | bare hsole => exact lengthAt?_bare hnames hname hother hsole (hrest rfl)

end Reference

/-- The reference may stand in front of `rest` in a text that may end loosely if `ends` says so. -/
inductive Detached (names : List String) (loose : String → Prop) (ends : Prop) (name : String)
    (rest : List Char) : List Char → Prop where
  | closed : ¬ loose name → Detached names loose ends name rest ('{' :: (name.toList ++ ['}']))
  | stopped {token : List Char} : SpelledName names name token → Stops rest → (rest = [] → ends) →
      Detached names loose ends name rest token

/-- **Texts whose references stay apart.** -/
inductive Clear (names : List String) (loose : String → Prop) (ends : Prop) :
    List Char → Prop where
  | nil : Clear names loose ends []
  | plain {c : Char} {rest : List Char} : c ≠ '$' → Clear names loose ends rest →
      Clear names loose ends (c :: rest)
  | reference {name : String} {token rest : List Char} : name ∈ names →
      Detached names loose ends name rest token → Clear names loose ends rest →
      Clear names loose ends ('$' :: (token ++ rest))

namespace Detached

variable {names : List String} {loose : String → Prop} {ends : Prop} {name : String}
  {token rest : List Char} (h : Detached names loose ends name rest token)
include h

theorem spells : SpelledName names name token := by
  cases h with
  | closed _ => exact .braced
  | stopped hspells _ _ => exact hspells

/-- The reference may stand in front of what becomes of the rest. -/
theorem congr {out : List Char} (hstart : rest.head? ≠ some '$' → out.head? = rest.head?) :
    Detached names loose ends name out token := by
  cases h with
  | closed hclosed => exact .closed hclosed
  | stopped hspells hstops hends =>
    have hhead : out.head? = rest.head? := hstart fun hdollar => (hstops _ hdollar).1 rfl
    refine .stopped hspells (fun c hc => hstops c (hhead ▸ hc)) ?_
    rintro rfl
    exact hends (List.head?_eq_none_iff.mp hhead.symm)

/-- The reference may stand where its text is put in front of another one. -/
theorem append {ends' : Prop} {out : List Char} (hglue : ends → Stops out ∧ (out = [] → ends')) :
    Detached names loose ends' name (rest ++ out) token := by
  cases h with
  | closed hclosed => exact .closed hclosed
  | stopped hspells hstops hends =>
    cases rest with
    | nil => exact .stopped hspells (hglue (hends rfl)).1 (hglue (hends rfl)).2
    | cons c rest => exact .stopped hspells hstops nofun

/-- A text that ends loosely for a name may be put in the place of the reference. -/
theorem glue (hloose : loose name) : Stops rest ∧ (rest = [] → ends) := by
  cases h with
  | closed hclosed => exact absurd hloose hclosed
  | stopped _ hstops hends => exact ⟨hstops, hends⟩

variable (hnames : ∀ name ∈ names, ClearName name) (hname : name ∈ names)
include hnames hname

theorem lengthAt? {other : String} (hother : other ∈ names) :
    Reference.lengthAt? other.toList (token ++ rest) =
      if other = name then some token.length else none := by
  refine h.spells.lengthAt? hnames hname hother fun hbare => ?_
  cases h with
  | closed _ =>
    have hclear := hnames name hname
    exact absurd ⟨[], (List.append_nil _).trans hbare.symm⟩
      (hclear.braceFree.not_prefix_brace hclear.ne_empty (name.toList ++ ['}']))
  | stopped _ hstops _ => exact hstops.not_word

end Detached

/-! ### How such texts are cut -/

/-- Where only one name fits, its entry is found. -/
theorem Reference.match?_of_lengthAt? {table : Table} (hk : Entries.NodupKeys table)
    {name value : String} {body : List Char} {n : Nat} (hmem : (name, value) ∈ table)
    (h : ∀ other ∈ Entries.keys table,
      lengthAt? other.toList body = if other = name then some n else none) :
    match? table body = some ⟨name, value, n⟩ := by
  have hsome : (match? table body).isSome := by
    refine match?_isSome_iff.mpr ⟨_, hmem, ?_⟩
    rw [h _ (List.mem_map_of_mem hmem), if_pos rfl]
    rfl
  obtain ⟨⟨other, text, length⟩, hfound⟩ := Option.isSome_iff_exists.mp hsome
  obtain ⟨hother, hfits⟩ := match?_spec hfound
  rw [h _ (List.mem_map_of_mem hother)] at hfits
  by_cases heq : other = name
  · subst heq
    rw [if_pos rfl, Option.some.injEq] at hfits
    have htext : text = value := Entries.eq_of_mem hk hother hmem
    rw [hfound, htext, hfits]
  · rw [if_neg heq] at hfits
    cases hfits

theorem replaceName_eq_drop (name value : List Char) (skip : Nat) (text : List Char) :
    replaceName name value skip text = replaceName name value 0 (text.drop skip) := by
  induction text generalizing skip with
  | nil => cases skip <;> rfl
  | cons c rest ih =>
    cases skip with
    | zero => rfl
    | succ skip => rw [replaceName, ih, List.drop_succ_cons]

theorem replaceName_plain (name value : List Char) {c : Char} (hc : c ≠ '$') (rest : List Char) :
    replaceName name value 0 (c :: rest) = c :: replaceName name value 0 rest := by
  rw [replaceName, if_neg hc]

theorem replaceName_append (name value : List Char) {front : List Char} (h : '$' ∉ front)
    (rest : List Char) :
    replaceName name value 0 (front ++ rest) = front ++ replaceName name value 0 rest := by
  induction front with
  | nil => rfl
  | cons c front ih =>
    obtain ⟨hc, hfront⟩ : '$' ≠ c ∧ '$' ∉ front := by simpa using h
    rw [List.cons_append, replaceName_plain _ _ (Ne.symm hc), ih hfront, List.cons_append]

theorem head?_rewritten (table : Table) {rest : List Char} (h : rest.head? ≠ some '$') :
    (rewritten table rest).head? = rest.head? := by
  cases rest with
  | nil => rfl
  | cons c rest => rw [rewritten_plain table fun hc => h (congrArg some hc)]; rfl

theorem head?_replaceName (name value : List Char) {rest : List Char} (h : rest.head? ≠ some '$') :
    (replaceName name value 0 rest).head? = rest.head? := by
  cases rest with
  | nil => rfl
  | cons c rest => rw [replaceName_plain _ _ fun hc => h (congrArg some hc)]; rfl

section Cut

variable {table : Table} (hk : Entries.NodupKeys table)
  (hnames : ∀ name ∈ Entries.keys table, ClearName name) {loose : String → Prop} {ends : Prop}

namespace Detached

variable {name : String} {token rest : List Char}
  (h : Detached (Entries.keys table) loose ends name rest token)
include hnames h

include hk in
/-- A reference of its own is one piece. -/
theorem scanFrom_eq {value : String} (hmem : (name, value) ∈ table) :
    scanFrom table 0 ('$' :: (token ++ rest)) =
      .reference ⟨name, value, token.length⟩ :: scanFrom table 0 rest := by
  have hmatch := Reference.match?_of_lengthAt? hk hmem
    fun other hother => h.lengthAt? hnames (List.mem_map_of_mem hmem) hother
  exact scanned_iff.mp (.reference hmatch rfl (scanned table rest))

/-- In the turn of a name, the references to it are replaced. -/
theorem replaceName_eq (hname : name ∈ Entries.keys table) {other : String}
    (hother : other ∈ Entries.keys table) (value : List Char) :
    replaceName other.toList value 0 ('$' :: (token ++ rest)) =
      if other = name then value ++ replaceName other.toList value 0 rest
      else '$' :: (token ++ replaceName other.toList value 0 rest) := by
  have hfits := h.lengthAt? hnames hname hother
  have hne : ¬ other.toList.isEmpty = true := by simpa using (hnames other hother).ne_empty
  rw [Reference.lengthAt?, if_neg hne, ← Reference.spelledAt?] at hfits
  rw [replaceName, if_pos rfl, hfits]
  by_cases heq : other = name
  · rw [if_pos heq, if_pos heq]
    simp only
    rw [replaceName_eq_drop, List.drop_left]
  · rw [if_neg heq, if_neg heq]
    simp only
    rw [replaceName_append _ _ (h.spells.dollarFree hnames hname)]

end Detached

namespace Clear

theorem append {ends' : Prop} {text out : List Char}
    (h : Clear (Entries.keys table) loose ends text)
    (hout : Clear (Entries.keys table) loose ends' out)
    (hglue : ends → Stops out ∧ (out = [] → ends')) :
    Clear (Entries.keys table) loose ends' (text ++ out) := by
  induction h with
  | nil => exact hout
  | plain hc _ ih => exact .plain hc ih
  | @reference name token rest hname hsep _ ih =>
    rw [List.cons_append, List.append_assoc]
    exact .reference hname (hsep.append hglue) ih

include hk hnames

/-- **Texts of this form are cut alike wherever they may stand.** -/
theorem scanFrom_append {text out : List Char}
    (h : Clear (Entries.keys table) loose ends text) (hglue : ends → Stops out) :
    scanFrom table 0 (text ++ out) = scanFrom table 0 text ++ scanFrom table 0 out := by
  induction h with
  | nil => rfl
  | plain hc _ ih =>
    rw [List.cons_append, scanFrom_plain table hc, scanFrom_plain table hc, ih, List.cons_append]
  | @reference name token rest hname hsep _ ih =>
    obtain ⟨⟨_, value⟩, hmem, rfl⟩ := List.mem_map.mp hname
    have hsep' : Detached (Entries.keys table) loose True _ (rest ++ out) token :=
      hsep.append fun hends => ⟨hglue hends, fun _ => trivial⟩
    rw [List.cons_append, List.append_assoc, hsep'.scanFrom_eq hk hnames hmem,
      hsep.scanFrom_eq hk hnames hmem, ih, List.cons_append]

variable (hvalues : ∀ leaf ∈ table, Clear (Entries.keys table) loose (loose leaf.1) leaf.2.toList)
include hvalues

/-- A text that is put in for a name leaves the text clear, and cut where its parts are. -/
theorem put {name value : String} {token rest out : List Char} (hmem : (name, value) ∈ table)
    (hsep : Detached (Entries.keys table) loose ends name rest token)
    (hout : Clear (Entries.keys table) loose ends out)
    (hstart : rest.head? ≠ some '$' → out.head? = rest.head?) :
    Clear (Entries.keys table) loose ends (value.toList ++ out) ∧
      scanFrom table 0 (value.toList ++ out) =
        scanFrom table 0 value.toList ++ scanFrom table 0 out := by
  have hglue : loose name → Stops out ∧ (out = [] → ends) := (hsep.congr hstart).glue
  have hvalue := hvalues _ hmem
  exact ⟨hvalue.append hout hglue, hvalue.scanFrom_append hk hnames fun h => (hglue h).1⟩

/-- **A pass reads no reference of a clear text across a seam**, and leaves the text clear. -/
theorem rewritten_seamless {text : List Char} (h : Clear (Entries.keys table) loose ends text) :
    Clear (Entries.keys table) loose ends (rewritten table text) ∧ Seamless table text := by
  unfold Seamless
  induction h with
  | nil => exact ⟨.nil, rfl⟩
  | @plain c rest hc _ ih =>
    rw [rewritten_plain table hc, scanFrom_plain table hc, scanFrom_plain table hc, ih.2]
    exact ⟨.plain hc ih.1, rfl⟩
  | @reference name token rest hname hsep _ ih =>
    obtain ⟨⟨_, value⟩, hmem, rfl⟩ := List.mem_map.mp hname
    have hcut := hsep.scanFrom_eq hk hnames hmem
    have hnew : rewritten table ('$' :: (token ++ rest)) =
        value.toList ++ rewritten table rest := by
      rw [rewritten, hcut]
      rfl
    obtain ⟨hclear, hparts⟩ := put hk hnames hvalues hmem hsep ih.1 (head?_rewritten table)
    rw [hnew, hparts, hcut, ih.2]
    exact ⟨hclear, rfl⟩

/-- **So does the turn of a name.** -/
theorem replaceName_seamless {name value : String} (hmem : (name, value) ∈ table)
    {text : List Char} (h : Clear (Entries.keys table) loose ends text) :
    Clear (Entries.keys table) loose ends (replaceName name.toList value.toList 0 text) ∧
      SeamlessFor table name value text := by
  have hname : name ∈ Entries.keys table := List.mem_map_of_mem hmem
  unfold SeamlessFor
  induction h with
  | nil => exact ⟨.nil, rfl⟩
  | @plain c rest hc _ ih =>
    rw [replaceName_plain _ _ hc, scanFrom_plain table hc, scanFrom_plain table hc, ih.2]
    exact ⟨.plain hc ih.1, rfl⟩
  | @reference other token rest hother hsep _ ih =>
    obtain ⟨⟨target, text⟩, htarget, rfl⟩ := List.mem_map.mp hother
    have hstart : rest.head? ≠ some '$' →
        (replaceName name.toList value.toList 0 rest).head? = rest.head? := head?_replaceName _ _
    rw [hsep.replaceName_eq hnames hother hname, hsep.scanFrom_eq hk hnames htarget,
      List.flatMap_cons, ← ih.2]
    by_cases heq : name = target
    · have hpiece : Piece.cutFor table name value (.reference ⟨target, text, token.length⟩) =
          scanFrom table 0 value.toList := if_pos heq.symm
      rw [if_pos heq, hpiece]
      exact put hk hnames hvalues hmem (heq ▸ hsep) ih.1 hstart
    · have hpiece : Piece.cutFor table name value (.reference ⟨target, text, token.length⟩) =
          [.reference ⟨target, text, token.length⟩] := if_neg (Ne.symm heq)
      have hkept := hsep.congr hstart
      rw [if_neg heq, hpiece]
      exact ⟨.reference hother hkept ih.1, hkept.scanFrom_eq hk hnames htarget⟩

/-- All turns leave a clear text clear, and none of them reads it across a seam. -/
theorem textInTurn_seamless {entries : Table} (hsub : ∀ leaf ∈ entries, leaf ∈ table)
    {text : List Char} (h : Clear (Entries.keys table) loose ends text) :
    Clear (Entries.keys table) loose ends (textInTurn entries text) ∧
      SeamlessInTurn table entries text := by
  induction entries generalizing text with
  | nil => exact ⟨h, trivial⟩
  | cons leaf rest ih =>
    obtain ⟨hleaf, hsub⟩ := List.forall_mem_cons.mp hsub
    obtain ⟨hclear, hfor⟩ := h.replaceName_seamless hk hnames hvalues hleaf
    obtain ⟨hclear, hrest⟩ := ih hsub hclear
    exact ⟨hclear, hfor, hrest⟩

end Clear

end Cut

/-! ### Clear trees -/

namespace Tree

/-- **A tree whose references stay apart**: its names are clear, and so are its texts, of which only
those of loose names may end loosely. -/
structure Clear (loose : String → Prop) (tree : Tree) : Prop where
  names : ∀ name ∈ Entries.keys tree.flatten, ClearName name
  texts : ∀ leaf ∈ tree.leaves,
    ConfigTree.Clear (Entries.keys tree.flatten) loose (loose leaf.1) leaf.2.toList

namespace Clear

variable {loose : String → Prop} {tree : Tree} (h : tree.Clear loose)
include h

theorem table : ∀ leaf ∈ tree.flatten,
    ConfigTree.Clear (Entries.keys tree.flatten) loose (loose leaf.1) leaf.2.toList :=
  fun leaf hl => h.texts leaf (mem_leaves_of_mem_flatten hl)

theorem seamless : tree.Seamless := fun leaf hl =>
  ((h.texts leaf hl).rewritten_seamless (nodupKeys_flatten tree) h.names h.table).2

theorem seamlessInTurn : tree.SeamlessInTurn := fun leaf hl =>
  ((h.texts leaf hl).textInTurn_seamless (nodupKeys_flatten tree) h.names h.table
    fun _ he => he).2

theorem pass : tree.pass.Clear loose where
  names := by
    rw [flatten_pass, Table.keys_pass]
    exact h.names
  texts := by
    intro leaf hl
    rw [leaves_pass] at hl
    obtain ⟨source, hs, rfl⟩ := List.mem_map.mp hl
    rw [flatten_pass, Table.keys_pass, substituteText_toList]
    exact ((h.texts source hs).rewritten_seamless (nodupKeys_flatten tree) h.names h.table).1

theorem passInTurn : tree.passInTurn.Clear loose where
  names := by
    rw [flatten_passInTurn, Table.keys_passInTurn]
    exact h.names
  texts := by
    intro leaf hl
    rw [leaves_passInTurn] at hl
    obtain ⟨source, hs, rfl⟩ := List.mem_map.mp hl
    rw [flatten_passInTurn, Table.keys_passInTurn, String.toList_ofList]
    exact ((h.texts source hs).textInTurn_seamless (nodupKeys_flatten tree) h.names h.table
      fun _ he => he).1

theorem iterate {step : Tree → Tree}
    (hstep : ∀ tree : Tree, tree.Clear loose → (step tree).Clear loose) (k : Nat) :
    (step^[k] tree).Clear loose := by
  induction k with
  | zero => exact h
  | succ k ih =>
    rw [Function.iterate_succ_apply']
    exact hstep _ ih

end Clear

/-- **Both kinds of passes come to the same tree**, if no pass of either run reads a reference
across a seam; and so they do if the references of the source stay apart. -/
theorem resolve_eq_inTurn {cap m : Nat} {tree result : Tree}
    (h : tree.resolve cap = .ok result) (hs : tree.StandsInTurnAt m) :
    ((∀ k < cap, ¬ tree.StandsAt k → (Tree.pass^[k] tree).Seamless) →
      (∀ k ≤ m, (Tree.passInTurn^[k] tree).SeamlessInTurn) →
      Tree.passInTurn^[m + 1] tree = result) ∧
    ∀ loose, tree.Clear loose → Tree.passInTurn^[m + 1] tree = result := by
  refine ⟨fun hseam hturn => resolve_eq_inTurn_of_seamless h hseam hturn hs, fun loose hclear => ?_⟩
  exact resolve_eq_inTurn_of_seamless h
    (fun k _ _ => (hclear.iterate (fun _ => Clear.pass) k).seamless)
    (fun k _ => (hclear.iterate (fun _ => Clear.passInTurn) k).seamlessInTurn) hs

/-- A text that ends in a bare reference, and references that are closed or stopped. -/
def looseChain : Tree :=
  .mapping [("a", .scalar "x$b"), ("b", .scalar "$\x7bc\x7d1"), ("c", .scalar "2"),
    ("d", .scalar "$\x7ba\x7d $b.")]

/-- Only `a` ends loosely; where it is referred to, a blank follows. -/
theorem resolve_eq_inTurn_chain :
    ∃ result : Tree, looseChain.resolve 12 = .ok result ∧ looseChain.StandsInTurnAt 2 ∧
      looseChain.Clear (· = "a") ∧ Tree.passInTurn^[2 + 1] looseChain = result ∧
      result.get? "d" = some (.scalar "x21 21.") := by
  let result : Tree := .mapping [("a", .scalar "x21"), ("b", .scalar "21"), ("c", .scalar "2"),
    ("d", .scalar "x21 21.")]
  have hres : looseChain.resolve 12 = .ok result := by decide +kernel
  have hstands : looseChain.StandsInTurnAt 2 := by decide +kernel
  have hnames : Entries.keys looseChain.flatten = ["a", "b", "c", "d"] := by decide +kernel
  have hclear : looseChain.Clear (· = "a") := by
    refine ⟨by decide +kernel, ?_⟩
    rw [hnames]
    have ha : SpelledName ["a", "b", "c", "d"] "a" ['{', 'a', '}'] := .braced
    have hb : SpelledName ["a", "b", "c", "d"] "b" ['b'] := .bare (by decide)
    have hc : Detached ["a", "b", "c", "d"] (· = "a") ("b" = "a") "c" ['1'] ['{', 'c', '}'] :=
      .closed (by decide)
    refine List.forall_mem_cons.mpr ⟨?_, List.forall_mem_cons.mpr ⟨?_,
      List.forall_mem_cons.mpr ⟨?_, List.forall_mem_cons.mpr ⟨?_, nofun⟩⟩⟩⟩
    · exact .plain (by decide) (.reference (by decide) (.stopped hb (by decide) fun _ => rfl) .nil)
    · exact .reference (by decide) hc (.plain (by decide) .nil)
    · exact .plain (by decide) .nil
    · exact .reference (by decide) (.stopped ha (by decide) nofun) (.plain (by decide)
        (.reference (by decide) (.stopped hb (by decide) nofun) (.plain (by decide) .nil)))
  exact ⟨result, hres, hstands, hclear, (resolve_eq_inTurn hres hstands).2 _ hclear, rfl⟩

/-- The text of `x`, put in front of `-b`, can be read as a reference to `a` or to `a-b`. -/
def overlappingReference : Tree :=
  .mapping [("a-b", .scalar "2"), ("x", .scalar "$a"), ("a", .scalar "1"), ("c", .scalar "$x-b")]

/-- The scan reads it as one to `a-b`, which comes first.  In turn, `a-b` is put in before there is
such a reference, and then `a` is. -/
theorem resolve_ne_inTurn :
    ∃ result, overlappingReference.resolve defaultCap = .ok result ∧
      result.get? "c" = some (.scalar "2") ∧
      overlappingReference.StandsInTurnAt 1 ∧
      (Tree.passInTurn^[1 + 1] overlappingReference).get? "c" = some (.scalar "1-b") ∧
      Tree.passInTurn^[1 + 1] overlappingReference ≠ result := by
  refine ⟨.mapping [("a-b", .scalar "2"), ("x", .scalar "1"), ("a", .scalar "1"),
    ("c", .scalar "2")], ?_, rfl, ?_, ?_, ?_⟩ <;> decide +kernel

end Tree

end ConfigTree
