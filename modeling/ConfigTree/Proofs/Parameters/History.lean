import ConfigTree.Parameters.Session
import ConfigTree.Proofs.Reference.Expansion
import ConfigTree.Proofs.Reference.Idempotence

/-! # Kept parameters do not remember how they came about

Parameters are kept while assignments are made to them, and some of these fail.  What is kept then
depends on the assignments that succeeded and on nothing else: **it is what is built from the
written tree they lead to** (`after_eq_built`).  An assignment that fails stores nothing, whichever
of its two steps fails.

One assignment either fails and keeps everything (`run_make_of_error`), or builds anew from the
changed tree (`run_make_of_ok`); the statement about histories is the induction on these two.

There is one way to parameters that are not what is built from their written tree: resolving them
once more, where a leaf is hidden behind another one of its name (`Tree.resolve_eq_ok_pass`).  They
stay so until the first assignment that succeeds.
-/
namespace ConfigTree

/-- Parameters as they are built from their written tree. -/
def Parameters.Built (parameters : Parameters) : Prop :=
  Parameters.ofTree parameters.cap parameters.source = .ok parameters

theorem Parameters.ofTree_eq_ok_iff {cap : Nat} {source : Tree} {parameters : Parameters} :
    ofTree cap source = .ok parameters ↔
      source.resolve cap = .ok parameters.data ∧ parameters.source = source ∧
        parameters.cap = cap := by
  unfold ofTree
  cases source.resolve cap with
  | error cause => simp
  | ok data =>
    simp only [Except.ok.injEq]
    constructor
    · rintro rfl
      exact ⟨rfl, rfl, rfl⟩
    · obtain ⟨_, _, _⟩ := parameters
      rintro ⟨rfl, rfl, rfl⟩
      rfl

theorem Parameters.Built.of_ofTree {cap : Nat} {source : Tree} {parameters : Parameters}
    (h : ofTree cap source = .ok parameters) : parameters.Built := by
  obtain ⟨-, rfl, rfl⟩ := ofTree_eq_ok_iff.mp h
  exact h

/-- Resolving references changes texts, but no keys, lengths or order. -/
theorem Tree.shape_resolve {cap : Nat} {tree result : Tree} (h : tree.resolve cap = .ok result) :
    result.shape = tree.shape := by
  obtain ⟨k, -, -, -, rfl⟩ := resolve_eq_ok_iff.mp h
  have hiterate : ∀ n, (pass^[n] tree).shape = tree.shape := by
    intro n
    induction n with
    | zero => rfl
    | succ n ih =>
      rw [Function.iterate_succ_apply', pass, substitute, shape_mapLeaves]
      exact ih
  exact hiterate (k + 1)

namespace Parameters

theorem update_eq_ok_iff {parameters next : Parameters} {path : Path} {value : Tree} :
    parameters.update path value = .ok next ↔
      ∃ source, parameters.source.set? path value = some source ∧
        ofTree parameters.cap source = .ok next := by
  rw [update]
  cases parameters.source.set? path value <;> simp

theorem resolveAgain_eq_ok_iff {parameters next : Parameters} :
    parameters.resolveAgain = .ok next ↔
      ∃ data, parameters.data.resolve parameters.cap = .ok data ∧
        next = { parameters with data := data } := by
  rw [resolveAgain]
  cases parameters.data.resolve parameters.cap <;> simp [eq_comm]

/-- Parameters as they are built from a tree, changed at a path, or resolved once more. -/
inductive Reachable : Parameters → Prop where
  | built {cap : Nat} {source : Tree} {parameters : Parameters} :
      ofTree cap source = .ok parameters → Reachable parameters
  | updated {parameters next : Parameters} {path : Path} {value : Tree} :
      Reachable parameters → parameters.update path value = .ok next → Reachable next
  | resolvedAgain {parameters next : Parameters} :
      Reachable parameters → parameters.resolveAgain = .ok next → Reachable next

theorem Built.shape_eq {parameters : Parameters} (h : parameters.Built) :
    parameters.data.shape = parameters.source.shape :=
  Tree.shape_resolve (ofTree_eq_ok_iff.mp h).1

/-- **The resolved tree has the shape of the written one**, however the parameters came about. -/
theorem Reachable.shape_eq {parameters : Parameters} (h : parameters.Reachable) :
    parameters.data.shape = parameters.source.shape := by
  induction h with
  | built hbuilt => exact (Built.of_ofTree hbuilt).shape_eq
  | updated _ hupdate _ =>
    obtain ⟨_, -, hbuilt⟩ := update_eq_ok_iff.mp hupdate
    exact (Built.of_ofTree hbuilt).shape_eq
  | resolvedAgain _ hagain ih =>
    obtain ⟨data, hresolve, rfl⟩ := resolveAgain_eq_ok_iff.mp hagain
    exact (Tree.shape_resolve hresolve).trans ih

/-- **Where no two leaves of the written tree have one name, all parameters are as they are built**,
for then resolving them once more changes nothing. -/
theorem Reachable.built_of_nodup {parameters : Parameters} (h : parameters.Reachable)
    (hnodup : parameters.source.names.Nodup) : parameters.Built := by
  induction h with
  | built hbuilt => exact .of_ofTree hbuilt
  | updated _ hupdate _ =>
    obtain ⟨_, -, hbuilt⟩ := update_eq_ok_iff.mp hupdate
    exact .of_ofTree hbuilt
  | @resolvedAgain parameters next _ hagain ih =>
    obtain ⟨data, hresolve, rfl⟩ := resolveAgain_eq_ok_iff.mp hagain
    have hbefore : parameters.Built := ih hnodup
    obtain ⟨hdata, -⟩ := ofTree_eq_ok_iff.mp hbefore
    have hclean := Tree.referencesIn_eq_nil_of_resolve hnodup hdata
    have hcap : 0 < parameters.cap := (Tree.standsAt_zero_of_resolve hdata).1
    have hsame : data = parameters.data :=
      Except.ok.inj (hresolve.symm.trans ((Tree.resolve_eq_self_iff hcap).mpr hclean))
    rw [hsame]
    exact hbefore

end Parameters

namespace Session

/-! ### One assignment -/

/-- What is read from the state are the parameters themselves, as nothing has been stored yet. -/
theorem run_get_bind {α : Type} (f : Parameters → Session α) (parameters : Parameters) :
    ((get : Session Parameters) >>= f).run.run parameters = (f parameters).run.run parameters :=
  rfl

/-- An assignment stores what `Parameters.update` answers, and nothing if that is an error. -/
theorem run_assign (path : Path) (value : Tree) (parameters : Parameters) :
    (assign path value).run.run parameters =
      ((parameters.update path value).map fun _ => (),
        (parameters.update path value).toOption.getD parameters) := by
  rw [assign, run_get_bind, Parameters.update]
  cases parameters.source.set? path value with
  | none => rfl
  | some source =>
    simp only [Parameters.ofTree]
    cases source.resolve parameters.cap with
    | error cause => rfl
    | ok data => rfl

variable {assignment : Assignment} {parameters : Parameters}

/-- **A failed assignment keeps everything**: either its path led nowhere, or the references of the
changed tree have no end. -/
theorem run_make_of_error {cause : ParameterError}
    (h : ((make assignment).run.run parameters).1 = .error cause) :
    ((make assignment).run.run parameters).2 = parameters ∧
      ((assignment.write? parameters.source = none ∧
          cause = .pathNotFound assignment.path.dotted) ∨
        ∃ source divergence, assignment.write? parameters.source = some source ∧
          source.resolve parameters.cap = .error divergence ∧ cause = .divergence divergence) := by
  rw [make, run_assign] at h ⊢
  unfold Parameters.update Parameters.ofTree at h ⊢
  unfold Assignment.write?
  cases hset : parameters.source.set? assignment.path assignment.value with
  | none =>
    rw [hset] at h
    exact ⟨rfl, .inl ⟨rfl, (Except.error.inj h).symm⟩⟩
  | some source =>
    rw [hset] at h
    simp only at h ⊢
    cases hresolve : source.resolve parameters.cap with
    | error divergence =>
      rw [hresolve] at h
      exact ⟨rfl, .inr ⟨source, divergence, rfl, hresolve, (Except.error.inj h).symm⟩⟩
    | ok data =>
      rw [hresolve] at h
      cases h

/-- A successful assignment builds anew from the changed tree. -/
theorem run_make_of_ok (h : ((make assignment).run.run parameters).1 = .ok ()) :
    ∃ source next, assignment.write? parameters.source = some source ∧
      Parameters.ofTree parameters.cap source = .ok next ∧
      ((make assignment).run.run parameters).2 = next := by
  rw [make, run_assign] at h ⊢
  unfold Parameters.update at h ⊢
  unfold Assignment.write?
  cases hset : parameters.source.set? assignment.path assignment.value with
  | none =>
    rw [hset] at h
    cases h
  | some source =>
    rw [hset] at h
    simp only at h ⊢
    cases hbuilt : Parameters.ofTree parameters.cap source with
    | error cause =>
      rw [hbuilt] at h
      cases h
    | ok next => exact ⟨source, next, rfl, hbuilt, rfl⟩

/-! ### Histories -/

/-- For each of some assignments, one after the other, whether it failed. -/
def outcomes (start : Parameters) (assignments : List Assignment) :
    List (Except ParameterError Unit) :=
  ((attempt assignments).run start).1

/-- What is kept after some assignments. -/
def after (start : Parameters) (assignments : List Assignment) : Parameters :=
  ((attempt assignments).run start).2

/-- The assignments that succeeded, in order. -/
def accepted (start : Parameters) (assignments : List Assignment) : List Assignment :=
  ((assignments.zip (outcomes start assignments)).filter fun made => made.2.isOk).map Prod.fst

/-- Writes values into a tree one after the other, without resolving anything. -/
def writeAll? : List Assignment → Tree → Option Tree
  | [], tree => some tree
  | assignment :: rest, tree => (assignment.write? tree).bind (writeAll? rest)

/-- What is kept after the first of some assignments. -/
def afterFirst (start : Parameters) (assignment : Assignment) : Parameters :=
  ((make assignment).run.run start).2

theorem outcomes_cons (start : Parameters) (assignment : Assignment) (rest : List Assignment) :
    outcomes start (assignment :: rest) =
      ((make assignment).run.run start).1 :: outcomes (afterFirst start assignment) rest := rfl

theorem after_cons (start : Parameters) (assignment : Assignment) (rest : List Assignment) :
    after start (assignment :: rest) = after (afterFirst start assignment) rest := rfl

theorem length_outcomes (start : Parameters) (assignments : List Assignment) :
    (outcomes start assignments).length = assignments.length := by
  induction assignments generalizing start with
  | nil => rfl
  | cons assignment rest ih => rw [outcomes_cons, List.length_cons, ih, List.length_cons]

theorem accepted_cons_of_ok {start : Parameters} {assignment : Assignment}
    (h : ((make assignment).run.run start).1 = .ok ()) (rest : List Assignment) :
    accepted start (assignment :: rest) =
      assignment :: accepted (afterFirst start assignment) rest := by
  rw [accepted, outcomes_cons, h]
  rfl

theorem accepted_cons_of_error {start : Parameters} {assignment : Assignment}
    {cause : ParameterError} (h : ((make assignment).run.run start).1 = .error cause)
    (rest : List Assignment) :
    accepted start (assignment :: rest) = accepted (afterFirst start assignment) rest := by
  rw [accepted, outcomes_cons, h]
  rfl

/-- The cap is never changed, and the written tree is what the successful assignments made of the
one at the start. -/
theorem writeAll?_accepted (start : Parameters) (assignments : List Assignment) :
    (after start assignments).cap = start.cap ∧
      writeAll? (accepted start assignments) start.source =
        some (after start assignments).source := by
  induction assignments generalizing start with
  | nil => exact ⟨rfl, rfl⟩
  | cons assignment rest ih =>
    obtain ⟨hcap, hwritten⟩ := ih (afterFirst start assignment)
    rw [after_cons]
    cases hmade : ((make assignment).run.run start).1 with
    | error cause =>
      have hkept : afterFirst start assignment = start := (run_make_of_error hmade).1
      rw [accepted_cons_of_error hmade]
      rw [hkept] at hcap hwritten ⊢
      exact ⟨hcap, hwritten⟩
    | ok _ =>
      obtain ⟨source, next, hwrite, hbuilt, hnext⟩ := run_make_of_ok hmade
      have hafter : afterFirst start assignment = next := hnext
      obtain ⟨-, hsource, hsame⟩ := Parameters.ofTree_eq_ok_iff.mp hbuilt
      rw [accepted_cons_of_ok hmade, writeAll?, hwrite, Option.bind_some]
      rw [hafter] at hcap hwritten ⊢
      exact ⟨hcap.trans hsame, hsource ▸ hwritten⟩

/-- **What is kept is built from its written tree** exactly if it was at the start or an assignment
has succeeded. -/
theorem built_after_iff {start : Parameters} {assignments : List Assignment} :
    (after start assignments).Built ↔ start.Built ∨ accepted start assignments ≠ [] := by
  induction assignments generalizing start with
  | nil => exact (or_iff_left fun hne => hne rfl).symm
  | cons assignment rest ih =>
    rw [after_cons, ih]
    cases hmade : ((make assignment).run.run start).1 with
    | error cause =>
      have hkept : afterFirst start assignment = start := (run_make_of_error hmade).1
      rw [accepted_cons_of_error hmade, hkept]
    | ok _ =>
      obtain ⟨source, next, -, hbuilt, hnext⟩ := run_make_of_ok hmade
      have hafter : afterFirst start assignment = next := hnext
      rw [accepted_cons_of_ok hmade, hafter]
      exact iff_of_true (.inl (.of_ofTree hbuilt)) (.inr (List.cons_ne_nil _ _))

theorem reachable_after {start : Parameters} (h : start.Reachable) (assignments : List Assignment) :
    (after start assignments).Reachable := by
  induction assignments generalizing start with
  | nil => exact h
  | cons assignment rest ih =>
    rw [after_cons]
    cases hmade : ((make assignment).run.run start).1 with
    | error cause =>
      have hkept : afterFirst start assignment = start := (run_make_of_error hmade).1
      exact ih (hkept.symm ▸ h)
    | ok _ =>
      obtain ⟨source, next, -, hbuilt, hnext⟩ := run_make_of_ok hmade
      have hafter : afterFirst start assignment = next := hnext
      exact ih (hafter ▸ .built hbuilt)

/-- **Histories do not matter.**  After any assignments, failed ones included, the cap is what it
was, and the written tree is the first one with the successful assignments written into it.  What is
kept is what is built from that tree, its resolved tree the resolution of the written one, exactly
if the parameters were built from a tree at the start or an assignment has succeeded.  Of the
parameters that can be come by at all, the resolved tree always has the shape of the written one,
and they are as built if no two leaves have one name.  Whatever is tried next, if it fails, because
its path leads nowhere or because references have no end, then both trees stay as they are. -/
theorem after_eq_built (start : Parameters) (assignments : List Assignment) :
    (outcomes start assignments).length = assignments.length ∧
    (after start assignments).cap = start.cap ∧
    (∃ source, writeAll? (accepted start assignments) start.source = some source ∧
      (after start assignments).source = source ∧
      (Parameters.ofTree start.cap source = .ok (after start assignments) ↔
        start.Built ∨ accepted start assignments ≠ []) ∧
      (start.Built ∨ accepted start assignments ≠ [] →
        source.resolve start.cap = .ok (after start assignments).data ∧
        (after start assignments).data.shape = source.shape) ∧
      (start.Reachable → (after start assignments).data.shape = source.shape)) ∧
    (start.Reachable → start.source.names.Nodup → start.Built) ∧
    ∀ (next : Assignment) (cause : ParameterError),
      ((make next).run.run (after start assignments)).1 = .error cause →
        ((make next).run.run (after start assignments)).2 = after start assignments ∧
        (cause = .pathNotFound next.path.dotted ∨
          ∃ divergence, cause = .divergence divergence) := by
  obtain ⟨hcap, hwritten⟩ := writeAll?_accepted start assignments
  have hbuilt : Parameters.ofTree start.cap (after start assignments).source =
      .ok (after start assignments) ↔ start.Built ∨ accepted start assignments ≠ [] := by
    rw [← built_after_iff, Parameters.Built, hcap]
  refine ⟨length_outcomes .., hcap, ⟨_, hwritten, rfl, hbuilt, fun h => ?_, fun h => ?_⟩,
    Parameters.Reachable.built_of_nodup, fun next cause hfails => ?_⟩
  · have hresolve := (Parameters.ofTree_eq_ok_iff.mp (hbuilt.mpr h)).1
    exact ⟨hresolve, Tree.shape_resolve hresolve⟩
  · exact (reachable_after h assignments).shape_eq
  · obtain ⟨hkept, ⟨-, hcause⟩ | ⟨_, divergence, -, -, hcause⟩⟩ := run_make_of_error hfails
    · exact ⟨hkept, .inl hcause⟩
    · exact ⟨hkept, .inr ⟨divergence, hcause⟩⟩

/-- Parameters in which one leaf refers to the other. -/
def referring : Parameters :=
  ⟨.mapping [("a", .scalar "1"), ("b", .scalar "$a")],
    .mapping [("a", .scalar "1"), ("b", .scalar "1")], defaultCap⟩

/-- Assignments of which the first closes a cycle, the second leads nowhere, and the third
succeeds. -/
def attempts : List Assignment :=
  [.dotted "a" (.scalar "$b"), .segments [.key "x", .key "y"] (.scalar "3"),
    .dotted "a" (.scalar "2")]

/-- Only the last assignment is left in what is kept, and a cycle is refused then as well. -/
theorem after_eq_built_refused :
    referring.Built ∧
    Parameters.ofTree defaultCap (.mapping [("a", .scalar "2"), ("b", .scalar "$a")]) =
      .ok (after referring attempts) ∧
    (after referring attempts).data = .mapping [("a", .scalar "2"), ("b", .scalar "2")] ∧
    (after referring attempts).data.shape = (after referring attempts).source.shape ∧
    ((make (.dotted "a" (.scalar "$b"))).run.run (after referring attempts)).2 =
      after referring attempts := by
  have hbuilt : referring.Built :=
    Parameters.ofTree_eq_ok_iff.mpr ⟨by decide +kernel, rfl, rfl⟩
  have hsource : (after referring attempts).source =
      .mapping [("a", .scalar "2"), ("b", .scalar "$a")] := by decide +kernel
  have hfails : ∃ cause, ((make (.dotted "a" (.scalar "$b"))).run.run
      (after referring attempts)).1 = .error cause := ⟨_, rfl⟩
  obtain ⟨cause, hcause⟩ := hfails
  obtain ⟨-, -, ⟨source, -, rfl, hafter, hdata, -⟩, -, hkept⟩ := after_eq_built referring attempts
  have hof := hafter.mpr (.inl hbuilt)
  obtain ⟨-, hshape⟩ := hdata (.inl hbuilt)
  exact ⟨hbuilt, hsource ▸ hof, by decide +kernel, hshape, (hkept _ cause hcause).1⟩

/-- An assignment whose path leads nowhere. -/
def lost : Assignment := .dotted "nope.x" (.scalar "1")

/-- A hidden leaf that was resolved once more is `3`, and `$y` in what is built from the written
tree.  An assignment that fails leaves it so. -/
theorem after_hiddenReference :
    ∃ built start : Parameters, Parameters.ofTree defaultCap Tree.hiddenReference = .ok built ∧
      built.resolveAgain = .ok start ∧
      outcomes start [lost] = [.error (.pathNotFound "nope.x")] ∧
      (after start [lost]).source = Tree.hiddenReference ∧
      (after start [lost]).data.at? [.key "a", .key "b"] = some (.scalar "3") ∧
      Tree.hiddenReference.resolve (after start [lost]).cap = .ok built.data ∧
      built.data.at? [.key "a", .key "b"] = some (.scalar "$y") := by
  let once : Tree := .mapping [("a", .mapping [("b", .scalar "$y")]), ("a.b", .scalar "2"),
    ("x", .scalar "y"), ("y", .scalar "3")]
  let twice : Tree := .mapping [("a", .mapping [("b", .scalar "3")]), ("a.b", .scalar "2"),
    ("x", .scalar "y"), ("y", .scalar "3")]
  have honce : Tree.hiddenReference.resolve defaultCap = .ok once := by decide +kernel
  have htwice : once.resolve defaultCap = .ok twice := by decide +kernel
  refine ⟨⟨Tree.hiddenReference, once, defaultCap⟩, ⟨Tree.hiddenReference, twice, defaultCap⟩,
    Parameters.ofTree_eq_ok_iff.mpr ⟨honce, rfl, rfl⟩,
    Parameters.resolveAgain_eq_ok_iff.mpr ⟨twice, htwice, rfl⟩, ?_, ?_, ?_, honce, rfl⟩
  · decide +kernel
  · decide +kernel
  · decide +kernel

end Session

end ConfigTree
