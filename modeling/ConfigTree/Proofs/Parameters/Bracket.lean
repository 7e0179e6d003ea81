import ConfigTree.Proofs.Parameters.History
import ConfigTree.Proofs.Tree.Addressing
import Mathlib.Data.List.TakeWhile

/-! # Brackets that hold no index

A bracket whose text is no index adds no segment to a path, and nothing tells that it was there.  So
`a[x]` is the path `a`, and `[x]` is the path to the root.  Reading there finds the node in front of
the bracket, and writing there replaces it (`make_bracket`), where a key that is missing makes both
fail: `a.x` leads nowhere if `a` is a sequence (`make_bracket_replaces`).

The text in front may itself end in a bracket that is not closed.  That one then swallows the new
bracket, and is dropped with it, so the node is the one in front of both (`Path.HeadOf`).
-/
namespace ConfigTree

/-! ### What brackets hold -/

namespace Text

theorem mem_dropWhile {drop : Char → Bool} {c : Char} {cs : List Char} (h : c ∈ cs)
    (hc : drop c = false) : c ∈ cs.dropWhile drop := by
  rw [← List.takeWhile_append_dropWhile (p := drop) (l := cs)] at h
  rcases List.mem_append.mp h with htaken | hkept
  · rw [List.mem_takeWhile_imp htaken] at hc
    cases hc
  · exact hkept

theorem mem_trim {c : Char} {cs : List Char} (h : c ∈ cs) (hc : isBlank c = false) :
    c ∈ trim cs :=
  List.mem_reverse.mpr (mem_dropWhile (List.mem_reverse.mpr (mem_dropWhile h hc)) hc)

/-- No index holds a bracket. -/
theorem readIndex?_bracket {cs : List Char} (h : '[' ∈ cs) : readIndex? cs = none := by
  have hnone : ∀ {cs : List Char}, '[' ∈ cs → readNat? cs = none := by
    intro cs h
    refine Option.eq_none_iff_forall_ne_some.mpr fun n hn => ?_
    exact absurd ((isDigit_of_readNat? hn).2 _ h) (by decide)
  unfold readIndex?
  split
  · next rest =>
    have hrest : '[' ∈ rest := (List.mem_cons.mp h).resolve_left (by decide)
    simp [hnone hrest]
  · simp [hnone h]

end Text

namespace Path

theorem ofBracket_eq_nil {inside : List Char} (h : Text.readIndex? (Text.trim inside) = none) :
    ofBracket inside = [] := by
  rw [ofBracket, h]

/-- A bracket is read up to where it closes. -/
theorem parseBracket_close {inside : List Char} (h : ']' ∉ inside) (done rest : List Char) :
    parseBracket done (inside ++ ']' :: rest) =
      ofBracket (done.reverse ++ inside) ++ parseKey [] rest := by
  induction inside generalizing done with
  | nil => rw [List.nil_append, parseBracket, List.append_nil]
  | cons c inside ih =>
    obtain ⟨hc, hinside⟩ : ']' ≠ c ∧ ']' ∉ inside := by simpa using h
    rw [List.cons_append, parseBracket.eq_3 _ _ _ (Ne.symm hc), ih hinside, List.reverse_cons,
      List.append_assoc]
    rfl

/-- Every bracket that is opened in the text is closed in it. -/
inductive Closed : List Char → Prop where
  | nil : Closed []
  | key {c : Char} {rest : List Char} : c ≠ '[' → Closed rest → Closed (c :: rest)
  | bracket {inside rest : List Char} :
      ']' ∉ inside → Closed rest → Closed ('[' :: (inside ++ ']' :: rest))

/-- A bracket behind a closed text is read on its own. -/
theorem Closed.parseKey_append {text : List Char} (h : Closed text) (key rest : List Char) :
    parseKey key (text ++ '[' :: rest) = parseKey key text ++ parseBracket [] rest := by
  induction h generalizing key with
  | nil => rw [List.nil_append, parseKey, parseKey]
  | @key c text hc _ ih =>
    rw [List.cons_append]
    by_cases hdot : c = '.'
    · rw [hdot, parseKey, parseKey, ih, List.append_assoc]
    · rw [parseKey.eq_4 _ _ _ hdot hc, parseKey.eq_4 _ _ _ hdot hc, ih]
  | @bracket inside text hinside _ ih =>
    have hassoc : '[' :: (inside ++ ']' :: text) ++ '[' :: rest =
        '[' :: (inside ++ ']' :: (text ++ '[' :: rest)) := by simp
    rw [hassoc, parseKey, parseKey, parseBracket_close hinside, parseBracket_close hinside, ih]
    simp only [List.append_assoc]

/-- What stands in front of the bracket that is left open at the end of a text; all of it, if none
is. -/
inductive HeadOf : List Char → List Char → Prop where
  | closed {text : List Char} : Closed text → HeadOf text text
  | opened {head inside : List Char} :
      Closed head → ']' ∉ inside → HeadOf (head ++ '[' :: inside) head

theorem exists_headOf (text : List Char) : ∃ head, HeadOf text head := by
  induction hn : text.length using Nat.strongRecOn generalizing text with
  | ind n ih =>
  subst hn
  match text with
  | [] => exact ⟨[], .closed .nil⟩
  | c :: rest =>
    by_cases hc : c = '['
    · subst hc
      by_cases hclose : ']' ∈ rest
      · obtain ⟨inside, more, rfl, hinside⟩ := List.eq_append_cons_of_mem hclose
        have hless : more.length < ('[' :: (inside ++ ']' :: more)).length := by
          simp
          omega
        obtain ⟨head, hhead⟩ := ih _ hless more rfl
        cases hhead with
        | closed h => exact ⟨_, .closed (.bracket hinside h)⟩
        | @opened _ left h hleft =>
          have hopened := HeadOf.opened (.bracket hinside h) hleft
          exact ⟨'[' :: (inside ++ ']' :: head), by simpa using hopened⟩
      · exact ⟨[], .opened .nil hclose⟩
    · obtain ⟨head, hhead⟩ := ih _ (Nat.lt_succ_self _) rest rfl
      cases hhead with
      | closed h => exact ⟨_, .closed (.key hc h)⟩
      | opened h hleft => exact ⟨c :: head, .opened (.key hc h) hleft⟩

/-- **A bracket that holds no index is dropped**, together with the one that was left open in front
of it. -/
theorem HeadOf.parse_bracket {before inside head : String} (h : HeadOf before.toList head.toList)
    (hclose : ']' ∉ inside.toList)
    (hindex : Text.readIndex? (Text.trim inside.toList) = none) :
    parse (before ++ "[" ++ inside ++ "]") = parse head := by
  have htext : (before ++ "[" ++ inside ++ "]").toList =
      before.toList ++ '[' :: (inside.toList ++ [']']) := by simp
  rw [parse, parse, htext]
  generalize before.toList = text at h
  cases h with
  | closed hclosed =>
    rw [hclosed.parseKey_append, parseBracket_close hclose, List.reverse_nil, List.nil_append,
      ofBracket_eq_nil hindex]
    simp [parseKey, ofKey]
  | @opened _ left hclosed hleft =>
    -- The open bracket goes on to the end of the new one.
    have hinside : ']' ∉ left ++ '[' :: inside.toList := by simpa using ⟨hleft, hclose⟩
    have hnone : ofBracket (left ++ '[' :: inside.toList) = [] :=
      ofBracket_eq_nil (Text.readIndex?_bracket (Text.mem_trim (by simp) (by decide)))
    have hassoc : head.toList ++ '[' :: left ++ '[' :: (inside.toList ++ [']']) =
        head.toList ++ '[' :: (left ++ '[' :: inside.toList ++ ']' :: []) := by simp
    rw [hassoc, hclosed.parseKey_append, parseBracket_close hinside, List.reverse_nil,
      List.nil_append, hnone]
    simp [parseKey, ofKey]

end Path

namespace Session

/-! ### Assignments -/

variable {assignment : Assignment} {parameters : Parameters}

/-- An assignment succeeds if its path can be written at and the references of the written tree have
an end; then it stores both trees. -/
theorem run_make_eq_ok {source data : Tree}
    (hwrite : assignment.write? parameters.source = some source)
    (hresolve : source.resolve parameters.cap = .ok data) :
    (make assignment).run.run parameters = (.ok (), ⟨source, data, parameters.cap⟩) := by
  have hset : parameters.source.set? assignment.path assignment.value = some source := hwrite
  have hupdate : parameters.update assignment.path assignment.value =
      .ok ⟨source, data, parameters.cap⟩ := by
    rw [Parameters.update, hset]
    exact Parameters.ofTree_eq_ok_iff.mpr ⟨hresolve, rfl, rfl⟩
  rw [make, run_assign, hupdate]
  rfl

theorem run_make_of_write?_eq_none (h : assignment.write? parameters.source = none) :
    (make assignment).run.run parameters =
      (.error (.pathNotFound assignment.path.dotted), parameters) := by
  have hset : parameters.source.set? assignment.path assignment.value = none := h
  have hupdate : parameters.update assignment.path assignment.value =
      .error (.pathNotFound assignment.path.dotted) := by
    rw [Parameters.update, hset]
  rw [make, run_assign, hupdate]
  rfl

/-- It fails, and keeps everything, exactly if there is nothing to write at or the references of the
written tree have no end. -/
theorem run_make_fails_iff :
    (((make assignment).run.run parameters).1 ≠ .ok () ∧
        ((make assignment).run.run parameters).2 = parameters) ↔
      ∀ source, assignment.write? parameters.source = some source →
        ∃ divergence, source.resolve parameters.cap = .error divergence := by
  constructor
  · rintro ⟨hfails, -⟩ source hwrite
    cases hresolve : source.resolve parameters.cap with
    | error divergence => exact ⟨divergence, rfl⟩
    | ok data =>
      rw [run_make_eq_ok hwrite hresolve] at hfails
      exact absurd rfl hfails
  · intro h
    cases hmade : ((make assignment).run.run parameters).1 with
    | error cause => exact ⟨nofun, (run_make_of_error hmade).1⟩
    | ok _ =>
      obtain ⟨source, next, hwrite, hbuilt, -⟩ := run_make_of_ok hmade
      obtain ⟨divergence, hdivergence⟩ := h source hwrite
      have hresolve := (Parameters.ofTree_eq_ok_iff.mp hbuilt).1
      rw [hdivergence] at hresolve
      cases hresolve

/-! ### Assignments behind a bracket -/

/-- **A bracket that holds no index does not keep an assignment off the node in front of it.**  The
path that ends in the bracket reads the node at the head of the text in front, and an assignment
does all that an assignment to the head does: if the head can be written at, which are all nodes
and the new keys of mappings, and the written tree can be resolved, it stores it, with the value in
the place of that node.  So reading answers nothing and writing fails and keeps everything exactly
if the head itself leads nowhere in the resolved tree, and cannot be written at in the written one
or leads to references without an end. -/
theorem make_bracket (before inside : String) (hclose : ']' ∉ inside.toList)
    (hindex : Text.readIndex? (Text.trim inside.toList) = none) :
    (∃ head : String, Path.HeadOf before.toList head.toList) ∧
    ∀ head : String, Path.HeadOf before.toList head.toList →
      ∀ (path : String), path = before ++ "[" ++ inside ++ "]" →
      ∀ (parameters : Parameters) (value : Tree),
        parameters.at? (.parse path) = parameters.at? (.parse head) ∧
        (make (.dotted path value)).run.run parameters =
          (make (.dotted head value)).run.run parameters ∧
        ((parameters.source.set? (.parse head) value).isSome ↔
          (parameters.source.at? (.parse head)).isSome ∨
            ∃ place segment parent, Path.parse head = place ++ [segment] ∧
              parameters.source.at? place = some parent ∧ parent.kind = .mapping) ∧
        (∀ source, parameters.source.set? (.parse head) value = some source →
          source.at? (.parse head) = some value ∧
          ∀ data, source.resolve parameters.cap = .ok data →
            (make (.dotted path value)).run.run parameters =
              (.ok (), ⟨source, data, parameters.cap⟩)) ∧
        ((parameters.at? (.parse path) = none ∧
            ((make (.dotted path value)).run.run parameters).1 ≠ .ok () ∧
            ((make (.dotted path value)).run.run parameters).2 = parameters) ↔
          parameters.at? (.parse head) = none ∧
            ∀ source, parameters.source.set? (.parse head) value = some source →
              ∃ divergence, source.resolve parameters.cap = .error divergence) := by
  constructor
  · obtain ⟨head, hhead⟩ := Path.exists_headOf before.toList
    exact ⟨String.ofList head, by rwa [String.toList_ofList]⟩
  · rintro head hhead path rfl parameters value
    have hpath := hhead.parse_bracket hclose hindex
    have hsame : (make (.dotted (before ++ "[" ++ inside ++ "]") value)).run.run parameters =
        (make (.dotted head value)).run.run parameters := by
      have hassign : make (.dotted (before ++ "[" ++ inside ++ "]") value) =
          make (.dotted head value) := congrArg (assign · value) hpath
      rw [hassign]
    rw [hsame, hpath]
    refine ⟨rfl, rfl, Tree.isSome_set?_iff, fun source hset => ⟨Tree.at?_of_set? hset, ?_⟩,
      and_congr_right fun _ => run_make_fails_iff⟩
    exact fun data hresolve => run_make_eq_ok hset hresolve

/-- Parameters with two items. -/
def listed : Parameters :=
  ⟨.mapping [("a", .sequence [.scalar "1", .scalar "2"])],
    .mapping [("a", .sequence [.scalar "1", .scalar "2"])], defaultCap⟩

/-- Behind an item that does not exist a bracket is refused, as the item is. -/
theorem make_bracket_refused :
    listed.Built ∧ Path.HeadOf "a.5".toList "a.5".toList ∧
    listed.at? (.parse "a.5[x]") = none ∧
    ((make (.dotted "a.5[x]" (.scalar "3"))).run.run listed).1 ≠ .ok () ∧
    ((make (.dotted "a.5[x]" (.scalar "3"))).run.run listed).2 = listed := by
  have hbuilt : listed.Built := Parameters.ofTree_eq_ok_iff.mpr ⟨by decide +kernel, rfl, rfl⟩
  have hhead : Path.HeadOf "a.5".toList "a.5".toList :=
    .closed (.key (by decide) (.key (by decide) (.key (by decide) .nil)))
  have hnone : listed.source.set? (.parse "a.5") (.scalar "3") = none := by decide +kernel
  have hfails : ∀ source, listed.source.set? (.parse "a.5") (.scalar "3") = some source →
      ∃ divergence, source.resolve listed.cap = .error divergence := by
    intro source hset
    rw [hnone] at hset
    cases hset
  obtain ⟨-, -, -, -, hlaw⟩ := (make_bracket "a.5" "x" (by decide)
    (by decide)).2 "a.5" hhead "a.5[x]" rfl listed (.scalar "3")
  exact ⟨hbuilt, hhead, hlaw.mpr ⟨by decide +kernel, hfails⟩⟩

/-- Behind a node the bracket is left out: the whole sequence is read and replaced, where a key that
is missing is refused.  A bracket alone replaces the root. -/
theorem make_bracket_replaces :
    listed.Built ∧ ']' ∉ "x".toList ∧ Text.readIndex? (Text.trim "x".toList) = none ∧
    listed.at? (.parse "a[x]") = some (.sequence [.scalar "1", .scalar "2"]) ∧
    (make (.dotted "a[x]" (.scalar "3"))).run.run listed =
      (.ok (), ⟨.mapping [("a", .scalar "3")], .mapping [("a", .scalar "3")], defaultCap⟩) ∧
    (make (.dotted "[x]" (.scalar "3"))).run.run listed =
      (.ok (), ⟨.scalar "3", .scalar "3", defaultCap⟩) ∧
    listed.at? (.parse "a.x") = none ∧
    (make (.dotted "a.x" (.scalar "3"))).run.run listed =
      (.error (.pathNotFound "a.x"), listed) := by
  have hmissing : (make (.dotted "a.x" (.scalar "3"))).run.run listed =
      (.error (.pathNotFound (Path.parse "a.x").dotted), listed) :=
    run_make_of_write?_eq_none (by decide +kernel)
  have hdotted : (Path.parse "a.x").dotted = "a.x" := by decide +kernel
  exact ⟨Parameters.ofTree_eq_ok_iff.mpr ⟨by decide +kernel, rfl, rfl⟩, by decide, by decide,
    by decide +kernel, run_make_eq_ok (by decide +kernel) (by decide +kernel),
    run_make_eq_ok (by decide +kernel) (by decide +kernel), by decide +kernel, hdotted ▸ hmissing⟩

end Session

end ConfigTree
