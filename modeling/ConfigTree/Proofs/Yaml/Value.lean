import ConfigTree.Proofs.Outcome
import ConfigTree.Yaml.Value

/-! # The meaning of nodes without aliases

Finding the meaning of a node counts the aliases that are followed.  Where there are none, the count
does not change and has no part in what is found, so only that is kept track of: `Settles`.
-/
namespace ConfigTree.Yaml.Value

variable {α β : Type}

/-- The computation follows no aliases; it finds what `found` holds, or fails if that is nothing. -/
def Settles (x : Follow α) (found : Option α) : Prop :=
  ∀ followed, (x.run followed).toOption = found.map (·, followed)

theorem settles_pure (a : α) : Settles (pure a) (some a) := fun _ => rfl

theorem settles_throw (e : Error) : Settles (throw e : Follow α) none := fun _ => rfl

theorem Settles.bind {x : Follow α} {found : Option α} {f : α → Follow β} {g : α → Option β}
    (hx : Settles x found) (hf : ∀ a ∈ found, Settles (f a) (g a)) :
    Settles (x >>= f) (found.bind g) := by
  intro followed
  rw [StateT.run_bind, toOption_bind, hx followed]
  cases found with
  | none => rfl
  | some a => exact hf a rfl followed

theorem Settles.map {x : Follow α} {found : Option α} (h : Settles x found) (f : α → β) :
    Settles (x >>= fun a => pure (f a)) (found.map f) := by
  rw [Option.map_eq_bind]
  exact h.bind fun a _ => settles_pure (f a)

variable {sharing : Sharing} {depth : Nat}

theorem settles_scalar {plain : Bool} {text : String}
    (h : plain = true → ofPlain text = .ok (.string text)) :
    Settles (ofNodeWithin sharing depth false (.scalar ⟨none, none⟩ plain text))
      (some (.string text)) := by
  have hscalar : ofScalar false none plain text = .ok (.string text) := by
    cases plain with
    | false => rfl
    | true => exact h rfl
  have hstep : ∀ inner, Settles (ofNodeStep inner false (.scalar ⟨none, none⟩ plain text))
      (some (.string text)) := by
    intro inner followed
    simp only [ofNodeStep, hscalar]
    rfl
  cases depth with
  | zero => exact hstep none
  | succ depth => exact hstep (some (ofNodeWithin sharing depth))

theorem settles_sequence_zero {items : List Node} :
    Settles (ofNodeWithin sharing 0 false (.sequence ⟨none, none⟩ items)) none :=
  settles_throw .tooDeep

theorem settles_mapping_zero {entries : List (Node × Node)} :
    Settles (ofNodeWithin sharing 0 false (.mapping ⟨none, none⟩ entries)) none :=
  settles_throw .tooDeep

theorem settles_sequence {items : List Node} {found : Option (List Value)}
    (h : Settles (items.mapM (ofNodeWithin sharing depth false)) found) :
    Settles (ofNodeWithin sharing (depth + 1) false (.sequence ⟨none, none⟩ items))
      (found.map .sequence) :=
  Settles.map h Value.sequence

theorem settles_mapping {entries : List (Node × Node)} {found : Option (List (Value × Value))}
    (h : Settles (entriesOf (ofNodeWithin sharing depth false) (ofNodeWithin sharing depth false) []
      entries) found) :
    Settles (ofNodeWithin sharing (depth + 1) false (.mapping ⟨none, none⟩ entries))
      (found.map .mapping) :=
  Settles.map h Value.mapping

theorem settles_entriesOf_nil (key value : Node → Follow Value) (seen : List (Value × Value)) :
    Settles (entriesOf key value seen []) (some seen.reverse) :=
  settles_pure seen.reverse

/-- An entry is added to the others, unless its key, a string, has been seen. -/
theorem settles_entriesOf_cons {key value : Node → Follow Value} {seen : List (Value × Value)}
    {k v : Node} {rest : List (Node × Node)} {foundKey : Option String} {foundValue : Option Value}
    {found : String → Value → Option (List (Value × Value))}
    (hkey : Settles (key k) (foundKey.map .string)) (hvalue : Settles (value v) foundValue)
    (hrest : ∀ a b, Settles (entriesOf key value ((.string a, b) :: seen) rest) (found a b)) :
    Settles (entriesOf key value seen ((k, v) :: rest)) (foundKey.bind fun a =>
      if seen.any (fun entry => same entry.1 (.string a)) then none
      else foundValue.bind (found a)) := by
  cases foundKey with
  | none =>
    rw [entriesOf]
    -- The key is not found, so what would be done with it does not matter.
    exact Settles.bind (g := fun _ => none) hkey fun a ha => nomatch ha
  | some a =>
    rw [entriesOf]
    refine Settles.bind (g := fun _ => if seen.any (fun entry => same entry.1 (.string a)) then none
      else foundValue.bind (found a)) hkey fun k' hk' => ?_
    obtain rfl : .string a = k' := Option.some.inj hk'
    cases hseen : seen.any fun entry => same entry.1 (.string a) with
    | true => exact settles_throw .duplicateKey
    | false => exact hvalue.bind fun b _ => hrest a b

/-- What the node of a document means, if aliases have no part in it. -/
theorem settles_ofNode {node : Node} {found : Option Value}
    (h : ∀ sharing, Settles (ofNodeWithin sharing maxDepth false node) found) :
    (ofNode node).toOption = found := by
  have hrun := h ⟨node.anchored, 100 * node.size⟩ 0
  rw [ofNode, toOption_bind, hrun]
  cases found <;> rfl

end ConfigTree.Yaml.Value
