import ConfigTree.Entries
import Mathlib.Algebra.GroupWithZero.Nat
import Mathlib.Data.List.Induction
import Mathlib.Data.List.Perm.Subperm

/-! # Entries made of pairs

Pairs with repeated keys become entries with distinct ones.  The keys stand in the order in which
each came first (`keys_ofList`), and each has the value that came last (`get?_ofList`), so a key
that comes again keeps its place and changes its value.  No entry is lost exactly if no key is
repeated (`length_ofList_eq_iff`).
-/
namespace ConfigTree.Entries

variable {κ ν : Type} [DecidableEq κ]

theorem get?_append (before after : Entries κ ν) (key : κ) :
    get? (before ++ after) key = (get? before key).or (get? after key) := by
  induction before with
  | nil => rfl
  | cons entry rest ih =>
    obtain ⟨k, v⟩ := entry
    by_cases hk : k = key <;> simp [hk, ih]

/-- Entries with the same distinct keys in one order, and the same values, are equal. -/
theorem eq_of_get?_eq {entries others : Entries κ ν} (hkeys : keys entries = keys others)
    (hnodup : NodupKeys entries) (h : ∀ key, get? entries key = get? others key) :
    entries = others := by
  induction entries generalizing others with
  | nil => exact (List.map_eq_nil_iff.mp hkeys.symm).symm
  | cons entry rest ih =>
    obtain ⟨_, value⟩ := entry
    obtain ⟨⟨key, other⟩, others, rfl, rfl, hrest⟩ := List.map_eq_cons_iff.mp hkeys.symm
    obtain ⟨hnew, hdistinct⟩ := List.nodup_cons.mp hnodup
    have hvalue : value = other := by simpa using h key
    rw [hvalue, ih hrest.symm hdistinct fun later => ?_]
    by_cases he : key = later
    · subst he
      have hnone : key ∉ keys others := by
        rw [keys, hrest]
        exact hnew
      rw [get?_eq_none_iff.mpr hnew, get?_eq_none_iff.mpr hnone]
    · simpa [he] using h later

theorem get?_eq_head? (entries : Entries κ ν) (key : κ) :
    get? entries key = (entries.filter fun entry => entry.1 = key).head?.map Prod.snd := by
  induction entries with
  | nil => rfl
  | cons entry rest ih =>
    obtain ⟨k, v⟩ := entry
    by_cases hk : k = key <;> simp [hk, ih]

theorem get?_insertAll (entries : Entries κ ν) (pairs : List (κ × ν)) (key : κ) :
    get? (insertAll entries pairs) key = (get? pairs.reverse key).or (get? entries key) := by
  induction pairs generalizing entries with
  | nil => rfl
  | cons pair rest ih =>
    obtain ⟨k, v⟩ := pair
    have hstep : insertAll entries ((k, v) :: rest) = insertAll (insert entries k v) rest := rfl
    rw [hstep, ih, get?_insert, List.reverse_cons, get?_append, Option.or_assoc]
    by_cases hk : k = key <;> simp [hk]

/-- **Of a key that is repeated the last value counts.** -/
theorem get?_ofList (pairs : List (κ × ν)) (key : κ) :
    get? (ofList pairs) key = get? pairs.reverse key := by
  rw [ofList, get?_insertAll, get?_nil, Option.or_none]

theorem ofList_concat (pairs : List (κ × ν)) (pair : κ × ν) :
    ofList (pairs ++ [pair]) = insert (ofList pairs) pair.1 pair.2 := by
  simp [ofList, insertAll]

omit [DecidableEq κ] in
theorem keys_append (before after : Entries κ ν) :
    keys (before ++ after) = keys before ++ keys after :=
  List.map_append

/-- **The keys stand in the order in which each came first.** -/
theorem keys_ofList (pairs : List (κ × ν)) : keys (ofList pairs) = (keys pairs).eraseDups := by
  induction pairs using List.reverseRecOn with
  | nil => rfl
  | append_singleton pairs pair ih =>
    have hlast : keys [pair] = [pair.1] := rfl
    rw [ofList_concat, keys_insert, keys_append, hlast, List.eraseDups_append, ih]
    simp only [List.mem_eraseDups]
    by_cases hm : pair.1 ∈ keys pairs
    · simp [hm, List.removeAll]
    · simp [hm, List.removeAll, List.eraseDups_cons]

theorem ofList_eq_nil_iff {pairs : List (κ × ν)} : ofList pairs = [] ↔ pairs = [] := by
  constructor
  · intro h
    have hkeys := keys_ofList pairs
    rw [h] at hkeys
    cases pairs with
    | nil => rfl
    | cons pair rest => simp [keys, List.eraseDups_cons] at hkeys
  · rintro rfl
    rfl

/-- The last value of a key is that of the last pair with this key. -/
theorem get?_reverse_eq_some_iff {pairs : List (κ × ν)} {pair : κ × ν} :
    get? pairs.reverse pair.1 = some pair.2 ↔
      (pairs.filter fun other => other.1 = pair.1).getLast? = some pair := by
  rw [get?_eq_head?, List.filter_reverse, List.head?_reverse, Option.map_eq_some_iff]
  constructor
  · rintro ⟨found, hfound, hvalue⟩
    have hkey : found.1 = pair.1 := by
      simpa using (List.mem_filter.mp (List.mem_of_getLast? hfound)).2
    rw [hfound, Prod.ext hkey hvalue]
  · exact fun h => ⟨pair, h, rfl⟩

/-- The entry at the end is that of the newest key, with the last of its values. -/
theorem getLast?_ofList_eq_some {pairs : List (κ × ν)} {entry : κ × ν}
    (h : (ofList pairs).getLast? = some entry) :
    (keys pairs).eraseDups.getLast? = some entry.1 ∧
      (pairs.filter fun pair => pair.1 = entry.1).getLast? = some entry := by
  constructor
  · rw [← keys_ofList, keys, List.getLast?_map, h, Option.map_some]
  · rw [← get?_reverse_eq_some_iff, ← get?_ofList]
    exact (get?_eq_some_iff (nodupKeys_ofList pairs)).mpr (List.mem_of_getLast? h)

theorem subperm_keys_ofList (pairs : List (κ × ν)) :
    (keys (ofList pairs)).Subperm (keys pairs) :=
  (nodupKeys_ofList pairs).subperm fun _ => mem_keys_ofList.mp

theorem length_ofList_le (pairs : List (κ × ν)) : (ofList pairs).length ≤ pairs.length := by
  simpa [keys] using (subperm_keys_ofList pairs).length_le

/-- No pair is lost if pairs with one key are one pair. -/
theorem mem_ofList_iff {pairs : List (κ × ν)}
    (h : ∀ pair ∈ pairs, ∀ other ∈ pairs, pair.1 = other.1 → pair = other) {entry : κ × ν} :
    entry ∈ ofList pairs ↔ entry ∈ pairs := by
  refine ⟨mem_of_mem_ofList, fun hentry => ?_⟩
  have hkey : entry.1 ∈ keys (ofList pairs) := mem_keys_ofList.mpr (List.mem_map_of_mem hentry)
  obtain ⟨other, hother, heq⟩ := List.mem_map.mp hkey
  rwa [← h other (mem_of_mem_ofList hother) entry hentry heq]

/-- **No entry is lost exactly if no key is repeated.** -/
theorem length_ofList_eq_iff {pairs : List (κ × ν)} :
    (ofList pairs).length = pairs.length ↔ NodupKeys pairs := by
  constructor
  · intro h
    have hperm := (subperm_keys_ofList pairs).perm_of_length_le (by simp [keys, h])
    exact hperm.nodup_iff.mp (nodupKeys_ofList pairs)
  · intro h
    rw [ofList_eq_self h]

/-- Inserting adds at most what the pair weighs. -/
theorem sum_insert_le (weight : κ × ν → Nat) (entries : Entries κ ν) (key : κ) (value : ν) :
    ((insert entries key value).map weight).sum ≤
      (entries.map weight).sum + weight (key, value) := by
  induction entries with
  | nil => simp [insert]
  | cons entry rest ih =>
    obtain ⟨k, v⟩ := entry
    rw [insert]
    split
    · next hkey =>
      subst hkey
      simp only [List.map_cons, List.sum_cons]
      omega
    · simp only [List.map_cons, List.sum_cons]
      omega

/-- What is left of some pairs weighs no more than they did. -/
theorem sum_ofList_le (weight : κ × ν → Nat) (pairs : List (κ × ν)) :
    ((ofList pairs).map weight).sum ≤ (pairs.map weight).sum := by
  induction pairs using List.reverseRecOn with
  | nil => exact Nat.le_refl _
  | append_singleton pairs pair ih =>
    have hinsert : _ ≤ _ + weight pair := sum_insert_le weight (ofList pairs) pair.1 pair.2
    rw [ofList_concat, List.map_append, List.sum_append]
    simp only [List.map_cons, List.map_nil, List.sum_cons, List.sum_nil]
    omega

theorem filter_insert (p : κ → Bool) (entries : Entries κ ν) (key : κ) (value : ν) :
    (insert entries key value).filter (fun entry => p entry.1) =
      if p key then insert (entries.filter fun entry => p entry.1) key value
      else entries.filter fun entry => p entry.1 := by
  induction entries with
  | nil => by_cases hp : p key <;> simp [insert, hp]
  | cons entry rest ih =>
    obtain ⟨k, v⟩ := entry
    by_cases hk : k = key
    · subst hk
      by_cases hp : p k <;> simp [insert, hp]
    · by_cases hp : p key <;> by_cases hq : p k <;> simp [insert, hk, hp, hq, ih]

/-- Some of the keys can be left out before or after inserting. -/
theorem filter_ofList (p : κ → Bool) (pairs : List (κ × ν)) :
    (ofList pairs).filter (fun entry => p entry.1) =
      ofList (pairs.filter fun pair => p pair.1) := by
  induction pairs using List.reverseRecOn with
  | nil => rfl
  | append_singleton pairs pair ih =>
    rw [ofList_concat, filter_insert, ih, List.filter_append]
    by_cases hp : p pair.1
    · simp [hp, ofList_concat]
    · simp [hp]

theorem insert_insert (entries : Entries κ ν) (key : κ) (value new : ν) :
    insert (insert entries key value) key new = insert entries key new := by
  induction entries with
  | nil => simp [insert]
  | cons entry rest ih =>
    obtain ⟨k, v⟩ := entry
    by_cases hk : k = key <;> simp [insert, hk, ih]

theorem insert_eq_self {entries : Entries κ ν} {key : κ} {value : ν}
    (h : get? entries key = some value) : insert entries key value = entries := by
  induction entries with
  | nil => cases h
  | cons entry rest ih =>
    obtain ⟨k, v⟩ := entry
    rw [get?_cons] at h
    by_cases hk : k = key
    · rw [if_pos hk] at h
      rw [insert, if_pos hk, Option.some.inj h]
    · rw [if_neg hk] at h
      rw [insert, if_neg hk, ih h]

/-- Two keys can be given values in either order, unless both are new. -/
theorem insert_comm {entries : Entries κ ν} {key other : κ} (hne : key ≠ other)
    (hmem : key ∈ keys entries) (value new : ν) :
    insert (insert entries key value) other new = insert (insert entries other new) key value := by
  induction entries with
  | nil => cases hmem
  | cons entry rest ih =>
    obtain ⟨k, v⟩ := entry
    by_cases hk : k = key
    · subst hk
      simp [insert, hne]
    · have hrest : key ∈ keys rest := (List.mem_cons.mp hmem).resolve_left (Ne.symm hk)
      by_cases ho : k = other
      · subst ho
        simp [insert, hk]
      · simp [insert, hk, ho, ih hrest]

end ConfigTree.Entries
