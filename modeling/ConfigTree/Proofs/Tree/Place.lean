import ConfigTree.Proofs.Tree.FlatName

/-! # Places as texts

The text of a place joins its segments by dots.  It is empty at the root, and it is empty at the
empty key: there alone a text does not tell where it belongs (`Path.Legible`).
-/
namespace ConfigTree.Path

/-- Does the text of the place tell it from the root? -/
def Legible (place : Path) : Prop := place = [] ∨ place.dotted ≠ ""

theorem legible_nil : Legible [] := .inl rfl

@[simp] theorem dotted_singleton (segment : Segment) : dotted [segment] = segment.asKey := by
  simp [dotted]

theorem dotted_append {p q : Path} (hp : p ≠ []) (hq : q ≠ []) :
    (p ++ q).dotted = p.dotted ++ "." ++ q.dotted := by
  unfold dotted
  rw [List.map_append, String.intercalate_append_of_ne_nil (by simpa) (by simpa)]

/-- A place behind a segment that has a text has one. -/
theorem legible_step (place : Path) {segment : Segment} (h : segment.asKey ≠ "") :
    Legible (place ++ [segment]) := by
  right
  by_cases hp : place = []
  · simpa [hp]
  · rw [dotted_append hp (by simp)]
    simp

theorem legible_key (place : Path) {name : String} (h : name ≠ "") :
    Legible (place ++ [.key name]) :=
  legible_step place h

theorem legible_index (place : Path) (position : Nat) :
    Legible (place ++ [.index position]) :=
  legible_step place (isSegment_showNat position).1

/-- What starts with a segment that has a text has one. -/
theorem legible_cons {segment : Segment} (h : segment.asKey ≠ "") (way : Path) :
    Legible (segment :: way) := by
  right
  by_cases hway : way = []
  · simpa [hway]
  · rw [← List.singleton_append, dotted_append (by simp) hway]
    simp

theorem dotted_eq_empty_of_append {p q : Path} (h : (p ++ q).dotted = "") : p.dotted = "" := by
  by_cases hp : p = []
  · rw [hp]
    rfl
  · by_cases hq : q = []
    · simpa [hq] using h
    · rw [dotted_append hp hq] at h
      simp at h

/-- The empty key is the only place that its text does not tell. -/
theorem eq_of_not_legible {place : Path} (h : ¬ Legible place) : place = [.key ""] := by
  obtain ⟨hne, hempty⟩ : place ≠ [] ∧ place.dotted = "" := by
    unfold Legible at h
    simpa using h
  obtain ⟨segment, rest, rfl⟩ := List.exists_cons_of_ne_nil hne
  have hsegment : segment = .key "" := by
    by_cases hkey : segment.asKey = ""
    · rcases segment with name | position
      · exact congrArg Segment.key hkey
      · exact absurd hkey (isSegment_showNat position).1
    · exact (h (legible_cons hkey rest)).elim
  by_cases hrest : rest = []
  · rw [hsegment, hrest]
  · rw [← List.singleton_append, dotted_append (by simp) hrest] at hempty
    simp at hempty

/-- The fields of a record name their place as paths do. -/
theorem Legible.childName_eq {place : Path} (h : place.Legible) (name : String) :
    childName place.dotted name = dotted (place ++ [.key name]) := by
  rcases h with rfl | h
  · rw [List.nil_append, dotted_singleton]
    rfl
  · have hp : place ≠ [] := fun he => h (he ▸ rfl)
    rw [childName, if_neg h, dotted_append hp (by simp), dotted_singleton]
    rfl

end ConfigTree.Path
