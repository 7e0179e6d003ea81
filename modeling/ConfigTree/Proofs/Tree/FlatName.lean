import ConfigTree.Tree.Leaves

/-! # Flat names tell leaves apart

A flat name joins the segments that lead to a leaf by dots.  If no segment is empty or holds a dot
itself, the segments can be read back off the name, so no name of a leaf is the beginning of another
one, up to a dot of it (`Tree.apart_names`), and no two leaves have one name (`Tree.nodup_names`).
Places in a sequence are such segments; of the keys it has to be asked.
-/
namespace ConfigTree

/-- A segment that can be read back off a flat name. -/
def IsSegment (text : String) : Prop := text ≠ "" ∧ '.' ∉ text.toList

theorem Text.showNat_injective {m n : Nat} (h : Text.showNat m = Text.showNat n) : m = n := by
  have hdigits : Nat.toDigits 10 m = Nat.toDigits 10 n := String.ofList_inj.mp h
  rw [← Nat.ofDigitChars_ten_toDigits (n := m), hdigits, Nat.ofDigitChars_ten_toDigits]

theorem Text.isDigit_of_mem_showNat {n : Nat} {c : Char} (h : c ∈ (Text.showNat n).toList) :
    c.isDigit := by
  rw [Text.showNat, String.toList_ofList] at h
  exact Nat.isDigit_of_mem_toDigits (by decide) (by decide) h

theorem isSegment_showNat (n : Nat) : IsSegment (Text.showNat n) := by
  constructor
  · intro h
    have hnil : Nat.toDigits 10 n = [] := String.ofList_eq_empty_iff.mp h
    exact Nat.toDigits_ne_nil hnil
  · intro h
    exact absurd (Text.isDigit_of_mem_showNat h) (by decide)

theorem childName_ne_empty {parent child : String} (h : parent ≠ "" ∨ child ≠ "") :
    childName parent child ≠ "" := by
  unfold childName
  split
  · next hp => exact h.resolve_left (fun hne => hne hp)
  · next hp => simp [hp]

theorem forall_mem_childName {q : Char → Prop} {parent child : String} (hdot : q '.')
    (hp : ∀ c ∈ parent.toList, q c) (hc : ∀ c ∈ child.toList, q c) :
    ∀ c ∈ (childName parent child).toList, q c := by
  unfold childName
  split
  · exact hc
  · intro c hmem
    simp only [String.toList_append, List.mem_append] at hmem
    rcases hmem with (hmem | hmem) | hmem
    · exact hp c hmem
    · have hcdot : c = '.' := by simpa using hmem
      exact hcdot ▸ hdot
    · exact hc c hmem

/-- Two lists that go on from a character neither of them holds, or end there, are equal. -/
theorem eq_of_append_stop {stop : Char} {front other tail rest : List Char}
    (hfront : stop ∉ front) (hother : stop ∉ other) (htail : tail = [] ∨ tail.head? = some stop)
    (hrest : rest = [] ∨ rest.head? = some stop) (h : front ++ tail = other ++ rest) :
    front = other := by
  have hcut : ∀ cs more : List Char, stop ∉ cs → (more = [] ∨ more.head? = some stop) →
      (cs ++ more).takeWhile (fun c => c != stop) = cs := by
    intro cs more hcs hmore
    rw [List.takeWhile_append_of_pos]
    · rcases hmore with rfl | hstop
      · simp
      · obtain ⟨_, rfl⟩ := List.head?_eq_some_iff.mp hstop
        simp
    · intro c hc
      simp only [bne_iff_ne, ne_eq]
      rintro rfl
      exact hcs hc
  rw [← hcut front tail hfront htail, h, hcut other rest hother hrest]

/-- The name starts with another one, which ends there or before a dot. -/
def IsBelow (name upper : String) : Prop :=
  ∃ tail, name.toList = upper.toList ++ tail ∧ (tail = [] ∨ tail.head? = some '.')

/-- Below different children there are no common names. -/
theorem eq_of_isBelow_childName {parent child other name : String} (hc : IsSegment child)
    (ho : IsSegment other) (h : IsBelow name (childName parent child))
    (h' : IsBelow name (childName parent other)) : child = other := by
  obtain ⟨tail, htail, hend⟩ := h
  obtain ⟨tail', htail', hend'⟩ := h'
  have hsame : child.toList ++ tail = other.toList ++ tail' := by
    rw [htail] at htail'
    unfold childName at htail'
    split at htail'
    · exact htail'
    · simpa using htail'
  exact String.toList_inj.mp (eq_of_append_stop hc.2 ho.2 hend hend' hsame)

theorem IsBelow.refl (name : String) : IsBelow name name := ⟨[], by simp, .inl rfl⟩

theorem IsBelow.trans {name middle upper : String} (h : IsBelow name middle)
    (h' : IsBelow middle upper) : IsBelow name upper := by
  obtain ⟨tail, htail, hend⟩ := h
  obtain ⟨tail', htail', hend'⟩ := h'
  refine ⟨tail' ++ tail, by rw [htail, htail', List.append_assoc], ?_⟩
  rcases hend' with rfl | hstop
  · exact hend
  · obtain ⟨rest, rfl⟩ := List.head?_eq_some_iff.mp hstop
    exact .inr rfl

theorem IsBelow.of_childName {parent child name : String} (hp : parent ≠ "")
    (h : IsBelow name (childName parent child)) : IsBelow name parent := by
  obtain ⟨tail, htail, _⟩ := h
  refine ⟨'.' :: (child.toList ++ tail), ?_, Or.inr rfl⟩
  rw [htail, childName, if_neg hp]
  simp

/-- Neither of two names starts with the other one and goes on with a dot, or ends there. -/
def Apart (name other : String) : Prop := ¬ IsBelow name other ∧ ¬ IsBelow other name

theorem Apart.symm {name other : String} (h : Apart name other) : Apart other name := ⟨h.2, h.1⟩

/-- Names below different children are apart. -/
theorem apart_of_isBelow {parent child other low lower : String} (hc : IsSegment child)
    (ho : IsSegment other) (hne : child ≠ other) (hlow : IsBelow low (childName parent child))
    (hlower : IsBelow lower (childName parent other)) : Apart low lower :=
  ⟨fun h => hne (eq_of_isBelow_childName hc ho hlow (h.trans hlower)),
    fun h => hne (eq_of_isBelow_childName hc ho (h.trans hlow) hlower)⟩

namespace Tree

mutual
/-- All keys in the tree have the property. -/
def AllKeys (p : String → Prop) : Tree → Prop
  | .scalar _ => True
  | .sequence items => AllKeysItems p items
  | .mapping entries => AllKeysEntries p entries

/-- All keys in the trees have the property. -/
def AllKeysItems (p : String → Prop) : List Tree → Prop
  | [] => True
  | t :: rest => AllKeys p t ∧ AllKeysItems p rest

/-- The keys and all keys in the values have the property. -/
def AllKeysEntries (p : String → Prop) : List (String × Tree) → Prop
  | [] => True
  | (k, t) :: rest => p k ∧ AllKeys p t ∧ AllKeysEntries p rest
end

section Decidable

variable (p) [DecidablePred p]

mutual
/-- It can be decided whether all keys have a property, if this can be decided of each key. -/
def decAllKeys : (tree : Tree) → Decidable (tree.AllKeys p)
  | .scalar _ => isTrue trivial
  | .sequence items => decAllKeysItems items
  | .mapping entries => decAllKeysEntries entries

/-- The same for the items of a sequence. -/
def decAllKeysItems : (items : List Tree) → Decidable (AllKeysItems p items)
  | [] => isTrue trivial
  | t :: rest => @instDecidableAnd _ _ (decAllKeys t) (decAllKeysItems rest)

/-- The same for the entries of a mapping. -/
def decAllKeysEntries : (entries : List (String × Tree)) → Decidable (AllKeysEntries p entries)
  | [] => isTrue trivial
  | (k, t) :: rest =>
    @instDecidableAnd (p k) _ inferInstance
      (@instDecidableAnd _ _ (decAllKeys t) (decAllKeysEntries rest))
end

instance (tree : Tree) : Decidable (tree.AllKeys p) := decAllKeys p tree

end Decidable

/-- The flat names of the leaves, in order. -/
def names (tree : Tree) : List String := tree.leaves.map Prod.fst

/-- Leaves with distinct names are the entries of their table. -/
theorem flatten_eq_leaves {tree : Tree} (h : tree.names.Nodup) : tree.flatten = tree.leaves :=
  Entries.ofList_eq_self h

theorem mem_leavesOfItems {name : String} {leaf : String × String} {items : List Tree}
    {index : Nat} (h : leaf ∈ leavesOfItems name index items) :
    ∃ i t, index ≤ i ∧ t ∈ items ∧ leaf ∈ leavesBelow (childName name (Text.showNat i)) t := by
  induction items generalizing index with
  | nil => cases h
  | cons t rest ih =>
    rcases List.mem_append.mp h with h | h
    · exact ⟨index, t, Nat.le_refl _, List.mem_cons_self .., h⟩
    · obtain ⟨i, t', hi, ht, hl⟩ := ih h
      exact ⟨i, t', by omega, List.mem_cons_of_mem _ ht, hl⟩

theorem mem_leavesOfEntries {name : String} {leaf : String × String}
    {entries : List (String × Tree)} (h : leaf ∈ leavesOfEntries name entries) :
    ∃ k t, (k, t) ∈ entries ∧ leaf ∈ leavesBelow (childName name k) t := by
  induction entries with
  | nil => cases h
  | cons entry rest ih =>
    obtain ⟨k, t⟩ := entry
    rcases List.mem_append.mp h with h | h
    · exact ⟨k, t, List.mem_cons_self .., h⟩
    · obtain ⟨k', t', hm, hl⟩ := ih h
      exact ⟨k', t', List.mem_cons_of_mem _ hm, hl⟩

mutual
theorem isBelow_of_mem {name : String} (hne : name ≠ "") (t : Tree) :
    ∀ leaf ∈ leavesBelow name t, IsBelow leaf.1 name :=
  match t with
  | .scalar text => by
    intro leaf hl
    rw [leavesBelow, List.mem_singleton] at hl
    exact ⟨[], by simp [hl], Or.inl rfl⟩
  | .sequence items => isBelow_of_mem_items hne 0 items
  | .mapping entries => isBelow_of_mem_entries hne entries

theorem isBelow_of_mem_items {name : String} (hne : name ≠ "") (index : Nat) (items : List Tree) :
    ∀ leaf ∈ leavesOfItems name index items, IsBelow leaf.1 name :=
  match items with
  | [] => fun _ hl => nomatch hl
  | t :: rest => by
    intro leaf hl
    rcases List.mem_append.mp hl with hl | hl
    · exact .of_childName hne (isBelow_of_mem (childName_ne_empty (Or.inl hne)) t leaf hl)
    · exact isBelow_of_mem_items hne (index + 1) rest leaf hl

theorem isBelow_of_mem_entries {name : String} (hne : name ≠ "")
    (entries : List (String × Tree)) :
    ∀ leaf ∈ leavesOfEntries name entries, IsBelow leaf.1 name :=
  match entries with
  | [] => fun _ hl => nomatch hl
  | (k, t) :: rest => by
    intro leaf hl
    rcases List.mem_append.mp hl with hl | hl
    · exact .of_childName hne (isBelow_of_mem (childName_ne_empty (Or.inl hne)) t leaf hl)
    · exact isBelow_of_mem_entries hne rest leaf hl
end

theorem isBelow_child {name child : String} {t : Tree} {leaf : String × String}
    (hc : IsSegment child) (hl : leaf ∈ leavesBelow (childName name child) t) :
    IsBelow leaf.1 (childName name child) :=
  isBelow_of_mem (childName_ne_empty (Or.inr hc.1)) t leaf hl

section Keys
variable {p : String → Prop}

theorem key_of_mem {entries : List (String × Tree)} {k : String} {t : Tree}
    (h : AllKeysEntries p entries) (hm : (k, t) ∈ entries) : p k := by
  induction entries with
  | nil => cases hm
  | cons entry rest ih =>
    rcases List.mem_cons.mp hm with he | hm
    · cases he
      exact h.1
    · exact ih h.2.2 hm

mutual
theorem apart_below (hp : ∀ k, p k → IsSegment k) (name : String) (t : Tree) (hv : t.Valid)
    (hk : t.AllKeys p) : ((leavesBelow name t).map Prod.fst).Pairwise Apart :=
  match t with
  | .scalar _ => by simp [leavesBelow]
  | .sequence items => apart_items hp name 0 items hv hk
  | .mapping entries => apart_entries hp name entries hv.1 hv.2 hk

theorem apart_items (hp : ∀ k, p k → IsSegment k) (name : String) (index : Nat)
    (items : List Tree) (hv : ValidItems items) (hk : AllKeysItems p items) :
    ((leavesOfItems name index items).map Prod.fst).Pairwise Apart :=
  match items with
  | [] => List.Pairwise.nil
  | t :: rest => by
    rw [leavesOfItems, List.map_append, List.pairwise_append]
    refine ⟨apart_below hp _ t hv.1 hk.1, apart_items hp name (index + 1) rest hv.2 hk.2, ?_⟩
    intro a ha b hb
    obtain ⟨leaf, hl, rfl⟩ := List.mem_map.mp ha
    obtain ⟨leaf', hl', rfl⟩ := List.mem_map.mp hb
    -- The second name lies below a place further on.
    obtain ⟨i, t', hi, _, hm⟩ := mem_leavesOfItems hl'
    have hne : Text.showNat index ≠ Text.showNat i := by
      intro h
      have hplace := Text.showNat_injective h
      omega
    exact apart_of_isBelow (isSegment_showNat index) (isSegment_showNat i) hne
      (isBelow_child (isSegment_showNat index) hl) (isBelow_child (isSegment_showNat i) hm)

theorem apart_entries (hp : ∀ k, p k → IsSegment k) (name : String)
    (entries : List (String × Tree)) (hn : Entries.NodupKeys entries) (hv : ValidEntries entries)
    (hk : AllKeysEntries p entries) :
    ((leavesOfEntries name entries).map Prod.fst).Pairwise Apart :=
  match entries with
  | [] => List.Pairwise.nil
  | (k, t) :: rest => by
    have hnodup : k ∉ Entries.keys rest ∧ (Entries.keys rest).Nodup := List.nodup_cons.mp hn
    rw [leavesOfEntries, List.map_append, List.pairwise_append]
    refine ⟨apart_below hp _ t hv.1 hk.2.1, apart_entries hp name rest hnodup.2 hv.2 hk.2.2, ?_⟩
    intro a ha b hb
    obtain ⟨leaf, hl, rfl⟩ := List.mem_map.mp ha
    obtain ⟨leaf', hl', rfl⟩ := List.mem_map.mp hb
    obtain ⟨k', t', hm, hl'⟩ := mem_leavesOfEntries hl'
    have hk' : IsSegment k' := hp k' (key_of_mem hk.2.2 hm)
    have hne : k ≠ k' := fun h => hnodup.1 (List.mem_map.mpr ⟨_, hm, h.symm⟩)
    exact apart_of_isBelow (hp k hk.1) hk' hne (isBelow_child (hp k hk.1) hl)
      (isBelow_child hk' hl')
end

/-- **No leaf lies below another one**, by its name, if the keys are segments. -/
theorem apart_names (hp : ∀ k, p k → IsSegment k) {tree : Tree} (hv : tree.Valid)
    (hk : tree.AllKeys p) : tree.names.Pairwise Apart :=
  apart_below hp "" tree hv hk

/-- **No two leaves have one name**, if the keys are segments. -/
theorem nodup_names (hp : ∀ k, p k → IsSegment k) {tree : Tree} (hv : tree.Valid)
    (hk : tree.AllKeys p) : tree.names.Nodup := by
  refine (apart_names hp hv hk).imp ?_
  rintro name _ h rfl
  exact h.1 (.refl name)

mutual
/-- What the root's name has and every step to a child keeps, all names have. -/
theorem forall_below {q : String → Prop} (hkey : ∀ n k, q n → p k → q (childName n k))
    (hplace : ∀ n i, q n → q (childName n (Text.showNat i))) {name : String} (hname : q name)
    (t : Tree) (hk : t.AllKeys p) : ∀ leaf ∈ leavesBelow name t, q leaf.1 :=
  match t with
  | .scalar text => by
    intro leaf hl
    rw [leavesBelow, List.mem_singleton] at hl
    exact hl ▸ hname
  | .sequence items => forall_items hkey hplace hname 0 items hk
  | .mapping entries => forall_entries hkey hplace hname entries hk

theorem forall_items {q : String → Prop} (hkey : ∀ n k, q n → p k → q (childName n k))
    (hplace : ∀ n i, q n → q (childName n (Text.showNat i))) {name : String} (hname : q name)
    (index : Nat) (items : List Tree) (hk : AllKeysItems p items) :
    ∀ leaf ∈ leavesOfItems name index items, q leaf.1 :=
  match items with
  | [] => fun _ hl => nomatch hl
  | t :: rest => by
    intro leaf hl
    rcases List.mem_append.mp hl with hl | hl
    · exact forall_below hkey hplace (hplace name index hname) t hk.1 leaf hl
    · exact forall_items hkey hplace hname (index + 1) rest hk.2 leaf hl

theorem forall_entries {q : String → Prop} (hkey : ∀ n k, q n → p k → q (childName n k))
    (hplace : ∀ n i, q n → q (childName n (Text.showNat i))) {name : String} (hname : q name)
    (entries : List (String × Tree)) (hk : AllKeysEntries p entries) :
    ∀ leaf ∈ leavesOfEntries name entries, q leaf.1 :=
  match entries with
  | [] => fun _ hl => nomatch hl
  | (k, t) :: rest => by
    intro leaf hl
    rcases List.mem_append.mp hl with hl | hl
    · exact forall_below hkey hplace (hkey name k hname hk.1) t hk.2.1 leaf hl
    · exact forall_entries hkey hplace hname rest hk.2.2 leaf hl
end

/-- Names are made of the characters of keys, digits and dots. -/
theorem forall_mem_names {q : Char → Prop} (hkey : ∀ k, p k → ∀ c ∈ k.toList, q c)
    (hdigit : ∀ c : Char, c.isDigit → q c) (hdot : q '.') {tree : Tree} (hk : tree.AllKeys p) :
    ∀ name ∈ tree.names, ∀ c ∈ name.toList, q c := by
  intro name hname
  obtain ⟨leaf, hl, rfl⟩ := List.mem_map.mp hname
  have hempty : ∀ c ∈ ("" : String).toList, q c := by simp
  refine forall_below (q := fun n => ∀ c ∈ n.toList, q c) ?_ ?_ hempty tree hk leaf hl
  · exact fun n k hn hp => forall_mem_childName hdot hn (hkey k hp)
  · exact fun n i hn => forall_mem_childName hdot hn fun c hc =>
      hdigit c (Text.isDigit_of_mem_showNat hc)

end Keys

end Tree

end ConfigTree
