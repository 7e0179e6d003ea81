/-!
# Entries in insertion order

A finite map is kept as the list of its entries, in the order in which their keys first came.
Inserting a key that is already there changes its value and leaves its place; a new key goes to the
end.  `ofList` inserts pairs one after the other, so of a repeated key the first place and the last
value remain.

The view is `Entries.get?`: `get?_insert` says what inserting does to it, and `keys_insert` what it
does to the order.  `NodupKeys` is the invariant that every list built by insertion has.
`mapValues` commutes with reading and inserting.
-/

namespace ConfigTree

/-- The entries of a finite map, in insertion order. -/
abbrev Entries (κ ν : Type) := List (κ × ν)

namespace Entries

variable {κ ν μ : Type} [DecidableEq κ]

/-- The value of a key. -/
def get? : Entries κ ν → κ → Option ν
  | [], _ => none
  | (k, v) :: rest, key => if k = key then some v else get? rest key

/-- Is there an entry with this key? -/
def contains (entries : Entries κ ν) (key : κ) : Bool :=
  (get? entries key).isSome

/-- Gives a key a value: in its place if the key is there, else at the end. -/
def insert : Entries κ ν → κ → ν → Entries κ ν
  | [], key, value => [(key, value)]
  | (k, v) :: rest, key, value =>
    if k = key then (k, value) :: rest else (k, v) :: insert rest key value

/-- Removes a key; the other entries keep their order. -/
def erase : Entries κ ν → κ → Entries κ ν
  | [], _ => []
  | (k, v) :: rest, key => if k = key then rest else (k, v) :: erase rest key

/-- Inserts pairs one after the other. -/
def insertAll (entries : Entries κ ν) (pairs : List (κ × ν)) : Entries κ ν :=
  pairs.foldl (fun acc pair => insert acc pair.1 pair.2) entries

/-- The map that arises by inserting pairs one after the other. -/
def ofList (pairs : List (κ × ν)) : Entries κ ν :=
  insertAll [] pairs

omit [DecidableEq κ] in
/-- The keys, in order. -/
def keys (entries : Entries κ ν) : List κ :=
  entries.map Prod.fst

omit [DecidableEq κ] in
/-- No key has two entries. -/
def NodupKeys (entries : Entries κ ν) : Prop :=
  (keys entries).Nodup

instance (entries : Entries κ ν) : Decidable (NodupKeys entries) :=
  inferInstanceAs (Decidable (keys entries).Nodup)

omit [DecidableEq κ] in
theorem NodupKeys.nodup {entries : Entries κ ν} (h : NodupKeys entries) : entries.Nodup :=
  List.Pairwise.of_map Prod.fst (fun _ _ hne he => hne (congrArg Prod.fst he)) h

/-- The same entries in whatever order, values being compared by `eq`. -/
def same (eq : ν → ν → Bool) (a b : Entries κ ν) : Bool :=
  a.length == b.length && a.all fun (k, v) => match get? b k with
    | some w => eq v w
    | none => false

@[simp] theorem get?_nil (key : κ) : get? ([] : Entries κ ν) key = none := rfl

@[simp] theorem get?_cons (k : κ) (v : ν) (rest : Entries κ ν) (key : κ) :
    get? ((k, v) :: rest) key = if k = key then some v else get? rest key := rfl

/-- **Reading after writing**: the written key has the new value, the others keep theirs. -/
theorem get?_insert (entries : Entries κ ν) (key : κ) (value : ν) (other : κ) :
    get? (insert entries key value) other =
      if key = other then some value else get? entries other := by
  induction entries with
  | nil => rfl
  | cons entry rest ih =>
    obtain ⟨k, v⟩ := entry
    by_cases hk : k = key
    · subst hk
      by_cases ho : k = other <;> simp [insert, ho]
    · by_cases ho : k = other
      · subst ho
        simp [insert, hk, Ne.symm hk]
      · simp [insert, hk, ho, ih]

theorem keys_insert (entries : Entries κ ν) (key : κ) (value : ν) :
    keys (insert entries key value) =
      if key ∈ keys entries then keys entries else keys entries ++ [key] := by
  induction entries with
  | nil => simp [insert, keys]
  | cons entry rest ih =>
    obtain ⟨k, v⟩ := entry
    by_cases hk : k = key
    · subst hk
      simp [insert, keys]
    · simp only [keys] at ih
      by_cases hm : key ∈ rest.map Prod.fst <;>
        simp [insert, keys, hk, Ne.symm hk, ih, hm]

theorem get?_eq_none_iff {entries : Entries κ ν} {key : κ} :
    get? entries key = none ↔ key ∉ keys entries := by
  induction entries with
  | nil => simp [keys]
  | cons entry rest ih =>
    obtain ⟨k, v⟩ := entry
    by_cases hk : k = key
    · simp [hk, keys]
    · simp only [get?_cons, hk, if_false, ih, keys, List.map_cons, List.mem_cons, not_or]
      exact ⟨fun h => ⟨Ne.symm hk, h⟩, fun h => h.2⟩

theorem mem_of_get? {entries : Entries κ ν} {key : κ} {value : ν}
    (h : get? entries key = some value) : (key, value) ∈ entries := by
  induction entries with
  | nil => simp at h
  | cons entry rest ih =>
    obtain ⟨k, v⟩ := entry
    by_cases hk : k = key
    · simp only [get?_cons, hk, if_true, Option.some.injEq] at h
      simp [hk, h]
    · simp only [get?_cons, hk, if_false] at h
      exact List.mem_cons_of_mem _ (ih h)

theorem NodupKeys.insert {entries : Entries κ ν} (h : NodupKeys entries) (key : κ) (value : ν) :
    NodupKeys (insert entries key value) := by
  unfold NodupKeys at h ⊢
  rw [keys_insert]
  split
  · exact h
  · next hm =>
    rw [List.nodup_append]
    refine ⟨h, by simp, ?_⟩
    intro a ha b hb hab
    simp only [List.mem_singleton] at hb
    exact hm (hb ▸ hab ▸ ha)

theorem NodupKeys.insertAll {entries : Entries κ ν} (h : NodupKeys entries)
    (pairs : List (κ × ν)) : NodupKeys (insertAll entries pairs) := by
  induction pairs generalizing entries with
  | nil => exact h
  | cons pair rest ih => exact ih (h.insert pair.1 pair.2)

/-- **What is built by insertion has distinct keys.** -/
theorem nodupKeys_ofList (pairs : List (κ × ν)) : NodupKeys (ofList pairs) :=
  NodupKeys.insertAll (by simp [NodupKeys, keys]) pairs

/-- Where keys are distinct, reading a key finds its only entry. -/
theorem get?_eq_some_iff {entries : Entries κ ν} (h : NodupKeys entries) {key : κ} {value : ν} :
    get? entries key = some value ↔ (key, value) ∈ entries := by
  refine ⟨mem_of_get?, fun hm => ?_⟩
  induction entries with
  | nil => cases hm
  | cons entry rest ih =>
    obtain ⟨k, v⟩ := entry
    have hnodup : k ∉ keys rest ∧ (keys rest).Nodup := List.nodup_cons.mp h
    rcases List.mem_cons.mp hm with he | hm
    · cases he
      simp
    · have hk : key ∈ keys rest := List.mem_map.mpr ⟨_, hm, rfl⟩
      have hne : k ≠ key := fun he => hnodup.1 (he ▸ hk)
      simpa [hne] using ih hnodup.2 hm

theorem eq_of_mem {entries : Entries κ ν} (h : NodupKeys entries) {key : κ} {value other : ν}
    (hv : (key, value) ∈ entries) (ho : (key, other) ∈ entries) : value = other := by
  have hget := (get?_eq_some_iff h).mpr hv
  rw [(get?_eq_some_iff h).mpr ho] at hget
  exact (Option.some.inj hget).symm

theorem mem_of_mem_insert {entries : Entries κ ν} {key : κ} {value : ν} {entry : κ × ν}
    (h : entry ∈ insert entries key value) : entry = (key, value) ∨ entry ∈ entries := by
  induction entries with
  | nil => exact Or.inl (by simpa [insert] using h)
  | cons first rest ih =>
    obtain ⟨k, v⟩ := first
    unfold insert at h
    split at h
    · next hk =>
      subst hk
      rcases List.mem_cons.mp h with he | hm
      · exact Or.inl he
      · exact Or.inr (List.mem_cons_of_mem _ hm)
    · rcases List.mem_cons.mp h with he | hm
      · exact Or.inr (he ▸ List.mem_cons_self ..)
      · exact (ih hm).imp_right (List.mem_cons_of_mem _)

theorem mem_of_mem_insertAll {entries : Entries κ ν} {pairs : List (κ × ν)} {entry : κ × ν}
    (h : entry ∈ insertAll entries pairs) : entry ∈ entries ∨ entry ∈ pairs := by
  induction pairs generalizing entries with
  | nil => exact Or.inl h
  | cons pair rest ih =>
    rcases ih h with hm | hm
    · rcases mem_of_mem_insert hm with rfl | hm
      · exact Or.inr (List.mem_cons_self ..)
      · exact Or.inl hm
    · exact Or.inr (List.mem_cons_of_mem _ hm)

theorem mem_of_mem_ofList {pairs : List (κ × ν)} {entry : κ × ν} (h : entry ∈ ofList pairs) :
    entry ∈ pairs :=
  (mem_of_mem_insertAll h).resolve_left List.not_mem_nil

theorem mem_keys_insert {entries : Entries κ ν} {key other : κ} {value : ν} :
    other ∈ keys (insert entries key value) ↔ other ∈ keys entries ∨ other = key := by
  rw [keys_insert]
  split
  · next hm => exact ⟨Or.inl, fun h => h.elim id fun he => he ▸ hm⟩
  · simp

theorem mem_keys_insertAll {entries : Entries κ ν} {pairs : List (κ × ν)} {key : κ} :
    key ∈ keys (insertAll entries pairs) ↔ key ∈ keys entries ∨ key ∈ keys pairs := by
  induction pairs generalizing entries with
  | nil => simp [insertAll, keys]
  | cons pair rest ih =>
    have hstep : insertAll entries (pair :: rest) = insertAll (insert entries pair.1 pair.2) rest :=
      rfl
    have hcons : key ∈ keys (pair :: rest) ↔ key = pair.1 ∨ key ∈ keys rest := List.mem_cons
    rw [hstep, ih, mem_keys_insert, hcons, or_assoc]

theorem mem_keys_ofList {pairs : List (κ × ν)} {key : κ} :
    key ∈ keys (ofList pairs) ↔ key ∈ keys pairs := by
  rw [ofList, mem_keys_insertAll]
  simp [keys]

theorem insert_eq_append {entries : Entries κ ν} {key : κ} (h : key ∉ keys entries) (value : ν) :
    insert entries key value = entries ++ [(key, value)] := by
  induction entries with
  | nil => rfl
  | cons entry rest ih =>
    obtain ⟨k, v⟩ := entry
    have hm : key ≠ k ∧ key ∉ keys rest := by simpa [keys] using h
    simp [insert, Ne.symm hm.1, ih hm.2]

theorem insertAll_eq_append {entries : Entries κ ν} {pairs : List (κ × ν)}
    (h : NodupKeys (entries ++ pairs)) : insertAll entries pairs = entries ++ pairs := by
  induction pairs generalizing entries with
  | nil => simp [insertAll]
  | cons pair rest ih =>
    obtain ⟨k, v⟩ := pair
    have hk : k ∉ keys entries := by
      have hd := (List.nodup_append.mp (by simpa [NodupKeys, keys] using h)).2.2
      exact fun hm => hd _ hm _ (List.mem_cons_self ..) rfl
    have hstep : insertAll entries ((k, v) :: rest) = insertAll (insert entries k v) rest := rfl
    rw [hstep, insert_eq_append hk, ih (by simpa using h)]
    simp

/-- Pairs with distinct keys are the entries they make. -/
theorem ofList_eq_self {pairs : List (κ × ν)} (h : NodupKeys pairs) : ofList pairs = pairs :=
  insertAll_eq_append (by simpa using h)

theorem mem_of_mem_erase {entries : Entries κ ν} {key : κ} {entry : κ × ν}
    (h : entry ∈ erase entries key) : entry ∈ entries := by
  induction entries with
  | nil => exact h
  | cons first rest ih =>
    obtain ⟨k, v⟩ := first
    unfold erase at h
    split at h
    · exact List.mem_cons_of_mem _ h
    · rcases List.mem_cons.mp h with he | hm
      · exact he ▸ List.mem_cons_self ..
      · exact List.mem_cons_of_mem _ (ih hm)

theorem NodupKeys.erase {entries : Entries κ ν} (h : NodupKeys entries) (key : κ) :
    NodupKeys (erase entries key) := by
  induction entries with
  | nil => exact h
  | cons entry rest ih =>
    obtain ⟨k, v⟩ := entry
    have hnodup : k ∉ keys rest ∧ (keys rest).Nodup := List.nodup_cons.mp h
    unfold Entries.erase
    split
    · exact hnodup.2
    · refine List.nodup_cons.mpr ⟨fun hk => hnodup.1 ?_, ih hnodup.2⟩
      obtain ⟨other, hm, he⟩ := List.mem_map.mp hk
      exact List.mem_map.mpr ⟨other, mem_of_mem_erase hm, he⟩

/-- Removing a key does not change what stands under the others. -/
theorem get?_erase_of_ne {entries : Entries κ ν} {key other : κ} (h : key ≠ other) :
    get? (erase entries key) other = get? entries other := by
  induction entries with
  | nil => rfl
  | cons entry rest ih =>
    obtain ⟨k, v⟩ := entry
    by_cases hk : k = key
    · subst hk
      simp [erase, h]
    · simp [erase, hk, ih]

/-- **Reading after removing**: where keys are distinct, the key is gone and the others are left. -/
theorem get?_erase {entries : Entries κ ν} (h : NodupKeys entries) (key other : κ) :
    get? (erase entries key) other = if key = other then none else get? entries other := by
  induction entries with
  | nil => simp [erase]
  | cons entry rest ih =>
    obtain ⟨k, v⟩ := entry
    have hnodup : k ∉ keys rest ∧ (keys rest).Nodup := List.nodup_cons.mp h
    by_cases hk : k = key
    · subst hk
      by_cases ho : k = other
      · subst ho
        simp [erase, get?_eq_none_iff.mpr hnodup.1]
      · simp [erase, ho]
    · by_cases ho : k = other
      · subst ho
        simp [erase, hk, Ne.symm hk]
      · simp [erase, hk, ho, ih hnodup.2]

omit [DecidableEq κ] in
/-- Changes every value. -/
def mapValues (f : ν → μ) (entries : Entries κ ν) : Entries κ μ :=
  entries.map fun entry => (entry.1, f entry.2)

omit [DecidableEq κ] in
@[simp] theorem keys_mapValues (f : ν → μ) (entries : Entries κ ν) :
    keys (mapValues f entries) = keys entries := by
  simp [keys, mapValues]

theorem get?_mapValues (f : ν → μ) (entries : Entries κ ν) (key : κ) :
    get? (mapValues f entries) key = (get? entries key).map f := by
  induction entries with
  | nil => rfl
  | cons entry rest ih =>
    obtain ⟨k, v⟩ := entry
    by_cases hk : k = key
    · simp [mapValues, hk]
    · simpa [mapValues, hk] using ih

theorem erase_mapValues (f : ν → μ) (entries : Entries κ ν) (key : κ) :
    erase (mapValues f entries) key = mapValues f (erase entries key) := by
  induction entries with
  | nil => rfl
  | cons entry rest ih =>
    obtain ⟨k, v⟩ := entry
    by_cases hk : k = key
    · simp [mapValues, erase, hk]
    · simpa [mapValues, erase, hk] using ih

theorem insert_map (f : κ → ν → μ) (entries : Entries κ ν) (key : κ) (value : ν) :
    insert (entries.map fun entry => (entry.1, f entry.1 entry.2)) key (f key value) =
      (insert entries key value).map fun entry => (entry.1, f entry.1 entry.2) := by
  induction entries with
  | nil => rfl
  | cons entry rest ih =>
    obtain ⟨k, v⟩ := entry
    by_cases hk : k = key
    · subst hk
      simp [insert]
    · simpa [insert, hk] using ih

/-- **Changing values goes before or after inserting**, also if the change looks at the keys. -/
theorem ofList_map (f : κ → ν → μ) (pairs : List (κ × ν)) :
    ofList (pairs.map fun pair => (pair.1, f pair.1 pair.2)) =
      (ofList pairs).map fun entry => (entry.1, f entry.1 entry.2) := by
  have hall : ∀ entries : Entries κ ν,
      insertAll (entries.map fun entry => (entry.1, f entry.1 entry.2))
          (pairs.map fun pair => (pair.1, f pair.1 pair.2)) =
        (insertAll entries pairs).map fun entry => (entry.1, f entry.1 entry.2) := by
    induction pairs with
    | nil => exact fun _ => rfl
    | cons pair rest ih =>
      intro entries
      have hstep := ih (insert entries pair.1 pair.2)
      rw [← insert_map] at hstep
      exact hstep
  exact hall []

theorem ofList_mapValues (f : ν → μ) (pairs : List (κ × ν)) :
    ofList (mapValues f pairs) = mapValues f (ofList pairs) :=
  ofList_map (fun _ => f) pairs

end Entries

end ConfigTree
