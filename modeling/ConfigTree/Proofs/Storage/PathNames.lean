import Mathlib.Data.List.Infix
import ConfigTree.Storage.File

/-! # The names of a path, of its parent and of its siblings

A path is cut at its slashes, and begins at the root if nothing stands before the first one.
Joining the parts of a path up to some point gives a path of just these parts (`parent?_cases`), so
the parent begins where the path does (`startOf_parent`), its names are the first names of the
path (`namesOf_parent`) and it is shorter (`length_parent_lt`).  The last name of a sibling is the
name it was given (`lastName?_sibling`).
-/
namespace ConfigTree

namespace FilePath

/-! ### Cutting and joining -/

theorem splitSlash_cons_of_ne {c : Char} (h : c ≠ '/') (rest : List Char) :
    splitSlash (c :: rest) = match splitSlash rest with
      | [] => [[c]]
      | first :: more => (c :: first) :: more :=
  splitSlash.eq_3 c rest h

theorem splitSlash_ne_nil (cs : List Char) : splitSlash cs ≠ [] := by
  induction cs with
  | nil => exact List.cons_ne_nil _ _
  | cons c rest ih =>
    by_cases hc : c = '/'
    · rw [hc]
      exact List.cons_ne_nil _ _
    · rw [splitSlash_cons_of_ne hc]
      split <;> exact List.cons_ne_nil _ _

/-- No part of a path has a slash in it. -/
theorem slash_not_mem {cs part : List Char} (h : part ∈ splitSlash cs) : '/' ∉ part := by
  induction cs generalizing part with
  | nil => simp_all [splitSlash]
  | cons c rest ih =>
    by_cases hc : c = '/'
    · subst hc
      rcases List.mem_cons.mp h with rfl | h
      · exact List.not_mem_nil
      · exact ih h
    · rw [splitSlash_cons_of_ne hc] at h
      split at h
      · simp_all [Ne.symm hc]
      · next first more hrest =>
        rw [hrest] at ih
        rcases List.mem_cons.mp h with rfl | h
        · simpa [Ne.symm hc] using ih (List.mem_cons_self ..)
        · exact ih (List.mem_cons_of_mem _ h)

/-- What has no slash is one part. -/
theorem splitSlash_eq_singleton {cs : List Char} (h : '/' ∉ cs) : splitSlash cs = [cs] := by
  induction cs with
  | nil => rfl
  | cons c rest ih =>
    obtain ⟨hc, hrest⟩ : '/' ≠ c ∧ '/' ∉ rest := by simpa using h
    rw [splitSlash_cons_of_ne (Ne.symm hc), ih hrest]

theorem splitSlash_append (front rest : List Char) :
    splitSlash (front ++ '/' :: rest) = splitSlash front ++ splitSlash rest := by
  induction front with
  | nil => rfl
  | cons c front ih =>
    by_cases hc : c = '/'
    · rw [hc]
      exact congrArg ([] :: ·) ih
    · rw [List.cons_append, splitSlash_cons_of_ne hc, splitSlash_cons_of_ne hc, ih]
      cases hfront : splitSlash front with
      | nil => exact absurd hfront (splitSlash_ne_nil front)
      | cons first more => rfl

theorem splitSlash_intercalate {parts : List (List Char)} (hne : parts ≠ [])
    (h : ∀ part ∈ parts, '/' ∉ part) : splitSlash (['/'].intercalate parts) = parts := by
  induction parts with
  | nil => exact absurd rfl hne
  | cons part rest ih =>
    have hpart := splitSlash_eq_singleton (h part (List.mem_cons_self ..))
    by_cases hrest : rest = []
    · subst hrest
      simpa using hpart
    · rw [List.intercalate_cons_of_ne_nil hrest, List.append_assoc, List.singleton_append,
        splitSlash_append, hpart, ih hrest fun p hp => h p (List.mem_cons_of_mem _ hp)]
      rfl

/-- A path begins at the root if its first part is empty and not its only one. -/
theorem isAbsolute_iff {path : String} :
    isAbsolute path = true ↔ ∃ rest, rest ≠ [] ∧ splitSlash path.toList = [] :: rest := by
  unfold isAbsolute
  cases path.toList with
  | nil => simp [splitSlash]
  | cons c cs =>
    by_cases hc : c = '/'
    · subst hc
      simpa [splitSlash] using splitSlash_ne_nil cs
    · rw [splitSlash_cons_of_ne hc]
      split <;> simp [hc]

/-- The parts of a path and the slashes between them make up its length. -/
theorem length_splitSlash (cs : List Char) :
    (splitSlash cs).flatten.length + (splitSlash cs).length = cs.length + 1 := by
  induction cs with
  | nil => rfl
  | cons c rest ih =>
    by_cases hc : c = '/'
    · subst hc
      simp only [splitSlash, List.flatten_cons, List.nil_append, List.length_cons]
      omega
    · rw [splitSlash_cons_of_ne hc]
      cases hrest : splitSlash rest with
      | nil => exact absurd hrest (splitSlash_ne_nil rest)
      | cons first more =>
        rw [hrest] at ih
        simp only [List.flatten_cons, List.length_append, List.length_cons] at ih ⊢
        omega

/-! ### The end of a path -/

theorem dropIdle_cons {part : List Char} (hne : part ≠ []) (hpoint : part ≠ ['.'])
    (rest : List (List Char)) : dropIdle (part :: rest) = part :: rest := by
  cases rest with
  | nil => rfl
  | cons second more => simp [dropIdle, hne, hpoint]

theorem dropIdle_suffix (parts : List (List Char)) : dropIdle parts <:+ parts := by
  induction parts with
  | nil => exact List.suffix_refl _
  | cons part rest ih =>
    cases rest with
    | nil => exact List.suffix_refl _
    | cons second more =>
      unfold dropIdle
      split
      · exact ih.trans (List.suffix_cons ..)
      · exact List.suffix_refl _

/-- The first part of a path is never dropped. -/
theorem dropIdle_ne_nil {parts : List (List Char)} (h : parts ≠ []) : dropIdle parts ≠ [] := by
  induction parts with
  | nil => exact absurd rfl h
  | cons part rest ih =>
    cases rest with
    | nil => exact List.cons_ne_nil _ _
    | cons second more =>
      unfold dropIdle
      split
      · exact ih (List.cons_ne_nil _ _)
      · exact List.cons_ne_nil _ _

/-- Only the first part can be left at the end although it leads nowhere. -/
theorem eq_nil_of_dropIdle {parts rest : List (List Char)} (h : dropIdle parts = [] :: rest) :
    rest = [] := by
  induction parts with
  | nil => cases h
  | cons part more ih =>
    cases more with
    | nil => exact (List.cons.inj h).2.symm
    | cons second more =>
      unfold dropIdle at h
      split at h
      · exact ih h
      · next hpart => simp_all

/-! ### Parents -/

/-- The parts before the last one that leads somewhere stand at the front of the path, and that one
follows them. -/
theorem splitSlash_of_partsOf {path : String} {last : List Char} {front : List (List Char)}
    (h : partsOf path = last :: front) :
    ∃ rest, last ∈ rest ∧ splitSlash path.toList = (dropIdle front).reverse ++ rest := by
  obtain ⟨behind, hbehind⟩ : last :: front <:+ (splitSlash path.toList).reverse :=
    h ▸ dropIdle_suffix _
  obtain ⟨idle, hidle⟩ := dropIdle_suffix front
  refine ⟨idle.reverse ++ last :: behind.reverse, by simp, ?_⟩
  rw [← List.reverse_reverse (splitSlash path.toList), ← hbehind]
  conv_lhs => rw [← hidle]
  simp

/-- Parts that are joined are cut again, unless they are the root alone. -/
theorem splitSlash_joinSlash {part : List Char} {more : List (List Char)} (hpart : part ≠ [])
    (hslash : ∀ p ∈ part :: more, '/' ∉ p) :
    splitSlash (joinSlash (part :: more)).toList = more.reverse ++ [part] := by
  have hjoin : (joinSlash (part :: more)).toList = ['/'].intercalate (part :: more).reverse := by
    unfold joinSlash
    split
    · next he => exact absurd (List.cons.inj he).1 hpart
    · exact String.toList_ofList
  rw [hjoin, splitSlash_intercalate (by simp) fun p hp => hslash p (List.mem_reverse.mp hp),
    List.reverse_cons]

/-- What the parent of a path is: the working directory for a single name, the root, or what comes
before the last names of the path. -/
theorem parent?_cases {path parent : String} (h : parent? path = some parent) :
    (∃ part rest, part ≠ [] ∧ splitSlash path.toList = part :: rest ∧ parent = "") ∨
    (∃ last rest, last ≠ [] ∧ last ∈ rest ∧ splitSlash path.toList = [] :: rest ∧
      parent = "/") ∨
    ∃ front part rest, part ≠ [] ∧ rest ≠ [] ∧ splitSlash path.toList = front ++ part :: rest ∧
      splitSlash parent.toList = front ++ [part] := by
  unfold parent? at h
  split at h
  · cases h
  · next part hparts =>
    have hsuffix : [part] <:+ (splitSlash path.toList).reverse := hparts ▸ dropIdle_suffix _
    obtain ⟨rest, hrest⟩ : [part] <+: splitSlash path.toList := by simpa using hsuffix.reverse
    split at h
    · cases h
    · next hpart =>
      exact .inl ⟨part, rest, by simpa using hpart, hrest.symm, (Option.some.inj h).symm⟩
  · next last front hlast hparts =>
    obtain ⟨rest, hmem, hpath⟩ := splitSlash_of_partsOf hparts
    obtain rfl := Option.some.inj h
    have hleads : last ≠ [] := by
      rintro rfl
      exact hlast (eq_nil_of_dropIdle hparts)
    cases hinit : dropIdle front with
    | nil => exact absurd hinit (dropIdle_ne_nil fun he => hlast he)
    | cons part more =>
      rw [hinit] at hpath
      by_cases hpart : part = []
      · subst hpart
        rw [eq_nil_of_dropIdle hinit] at hpath ⊢
        exact .inr (.inl ⟨last, rest, hleads, hmem, hpath, rfl⟩)
      · have hslash : ∀ p ∈ part :: more, '/' ∉ p := fun p hp =>
          slash_not_mem (hpath ▸ List.mem_append_left rest (List.mem_reverse.mpr hp))
        exact .inr (.inr ⟨more.reverse, part, rest, hpart, List.ne_nil_of_mem hmem,
          by simpa using hpath, splitSlash_joinSlash hpart hslash⟩)

/-- A path begins at the root exactly if its parent does. -/
theorem isAbsolute_parent {path parent : String} (h : parent? path = some parent) :
    isAbsolute parent = isAbsolute path := by
  have hpath : isAbsolute path = true ↔ _ := isAbsolute_iff
  rw [Bool.eq_iff_iff, hpath]
  obtain ⟨part, rest, hpart, hsplit, rfl⟩ | ⟨last, rest, -, hmem, hsplit, rfl⟩ |
    ⟨front, part, rest, hpart, hrest, hsplit, hparent⟩ := parent?_cases h
  · simp [hsplit, hpart, isAbsolute]
  · simp [hsplit, List.ne_nil_of_mem hmem, isAbsolute]
  · rw [isAbsolute_iff, hsplit, hparent]
    cases front with
    | nil => simp [hpart]
    | cons first more => simp

/-- The parent of a path is shorter. -/
theorem length_parent_lt {path parent : String} (h : parent? path = some parent) :
    parent.length < path.length := by
  have hpath := length_splitSlash path.toList
  rw [String.length_toList] at hpath
  obtain ⟨part, rest, hpart, hsplit, rfl⟩ | ⟨last, rest, hlast, hmem, hsplit, rfl⟩ |
    ⟨front, part, rest, hpart, hrest, hsplit, hparent⟩ := parent?_cases h
  · have hpos := List.length_pos_iff.mpr hpart
    simp only [hsplit, List.flatten_cons, List.length_append, List.length_cons] at hpath
    simp only [String.length_empty]
    omega
  · have hpos := List.length_pos_iff.mpr hlast
    obtain ⟨before, after, rfl⟩ := List.append_of_mem hmem
    simp only [hsplit, List.flatten_cons, List.flatten_append, List.length_append,
      List.length_cons] at hpath
    simp only [show "/".length = 1 from rfl]
    omega
  · have hpos := List.length_pos_iff.mpr hrest
    have hparent' := length_splitSlash parent.toList
    rw [String.length_toList] at hparent'
    simp only [hsplit, hparent, List.flatten_append, List.flatten_cons, List.flatten_nil,
      List.length_append, List.length_cons, List.length_nil] at hpath hparent'
    omega

/-! ### Siblings -/

/-- The last name of a path whose last part leads somewhere. -/
theorem lastName?_of_splitSlash {path : String} {front : List (List Char)} {name : List Char}
    (h : splitSlash path.toList = front ++ [name]) (hne : name ≠ []) (hpoint : name ≠ ['.'])
    (hpoints : name ≠ ['.', '.']) : lastName? path = some (String.ofList name) := by
  have hparts : partsOf path = name :: front.reverse := by
    rw [partsOf, h, List.reverse_append, List.reverse_singleton, List.singleton_append,
      dropIdle_cons hne hpoint]
  simp [lastName?, hparts, hne, hpoint, hpoints]

/-- The path of a sibling is its name, or ends with it after a slash. -/
theorem sibling_eq (path name : String) :
    sibling path name = name ∨ ∃ front : String, sibling path name = front ++ "/" ++ name := by
  unfold sibling
  split
  · split
    · split
      · exact .inl rfl
      · split
        · next hroot => exact .inr ⟨"", by rw [hroot, String.empty_append]⟩
        · exact .inr ⟨_, rfl⟩
    · exact .inl rfl
  · split
    · exact .inl rfl
    · split
      · next hslash =>
        obtain ⟨front, hfront⟩ := List.getLast?_eq_some_iff.mp (by simpa using hslash)
        refine .inr ⟨String.ofList front, ?_⟩
        rw [← String.toList_inj]
        simp [hfront]
      · exact .inr ⟨_, rfl⟩

/-- **The last name of a sibling is the name it was given.** -/
theorem lastName?_sibling (path : String) {name : String} (hslash : '/' ∉ name.toList)
    (hne : name ≠ "") (hpoint : name ≠ ".") (hpoints : name ≠ "..") :
    lastName? (sibling path name) = some name := by
  have hends : ∃ front, splitSlash (sibling path name).toList = front ++ [name.toList] := by
    rcases sibling_eq path name with h | ⟨front, h⟩
    · exact ⟨[], by rw [h, splitSlash_eq_singleton hslash, List.nil_append]⟩
    · refine ⟨splitSlash front.toList, ?_⟩
      rw [h, String.append_assoc, String.toList_append, String.toList_append]
      rw [← splitSlash_eq_singleton hslash]
      exact splitSlash_append _ _
  obtain ⟨front, hfront⟩ := hends
  have hname : ∀ other : String, name ≠ other → name.toList ≠ other.toList :=
    fun other h he => h (String.toList_inj.mp he)
  rw [lastName?_of_splitSlash hfront (hname "" hne) (hname "." hpoint) (hname ".." hpoints),
    String.ofList_toList]

/-- The last name of a path has no slash in it. -/
theorem slash_not_mem_lastName {path name : String} (h : lastName? path = some name) :
    '/' ∉ name.toList := by
  unfold lastName? at h
  split at h
  · cases h
  · next part rest hparts =>
    split at h
    · cases h
    · cases h
      rw [String.toList_ofList]
      have hmem : part ∈ (splitSlash path.toList).reverse :=
        (dropIdle_suffix _).subset (by rw [← partsOf, hparts]; exact List.mem_cons_self ..)
      exact slash_not_mem (List.mem_reverse.mp hmem)

/-- The name of a temporary file. -/
theorem lastName?_temporary {process : String} (hprocess : '/' ∉ process.toList) (path : String) :
    lastName? (temporary process path) =
      some ("." ++ (lastName? path).getD "" ++ "." ++ process ++ ".tmp") := by
  have hlast : '/' ∉ ((lastName? path).getD "").toList := by
    cases hname : lastName? path with
    | none => exact List.not_mem_nil
    | some name => exact slash_not_mem_lastName hname
  have hlong : ∀ other : String, other.length < 4 →
      "." ++ (lastName? path).getD "" ++ "." ++ process ++ ".tmp" ≠ other := by
    rintro other hother rfl
    simp only [String.length_append, show ".".length = 1 from rfl,
      show ".tmp".length = 4 from rfl] at hother
    omega
  exact lastName?_sibling path (by simp [hlast, hprocess]) (hlong "" (by decide))
    (hlong "." (by decide)) (hlong ".." (by decide))

end FilePath

namespace Disk

open FilePath

/-! ### Names -/

/-- The names of a path are its parts that are not empty, with possibly a point behind them. -/
theorem named_prefix_namesOf (path : String) :
    ((splitSlash path.toList).map String.ofList).filter (· != "") <+: namesOf path := by
  unfold namesOf
  dsimp only
  split
  · next hempty =>
    rw [List.isEmpty_iff.mp hempty]
    exact List.nil_prefix
  · split
    · exact List.prefix_append _ _
    · exact List.prefix_refl _

theorem namesOf_of_splitSlash {path : String} {front : List (List Char)} {name : List Char}
    (h : splitSlash path.toList = front ++ [name]) (hne : name ≠ []) :
    namesOf path = ((splitSlash path.toList).map String.ofList).filter (· != "") := by
  have hname : String.ofList name ≠ "" := fun he => hne (String.ofList_eq_empty_iff.mp he)
  unfold namesOf
  simp [h, hname]

/-- **The names of the parent are the first names of the path**, unless the parent is the root or
the working directory. -/
theorem namesOf_parent {path parent : String} (h : parent? path = some parent)
    (hne : parent ≠ "") (hroot : parent ≠ "/") : namesOf parent <+: namesOf path := by
  obtain ⟨_, _, -, -, hempty⟩ | ⟨_, _, -, -, -, hslash⟩ |
    ⟨front, part, rest, hpart, -, hpath, hparent⟩ := parent?_cases h
  · exact absurd hempty hne
  · exact absurd hslash hroot
  · have hfirst : splitSlash parent.toList <+: splitSlash path.toList := by
      rw [hparent, hpath]
      exact List.prefix_append_right_inj front |>.mpr (List.prefix_append [part] rest)
    rw [namesOf_of_splitSlash hparent hpart]
    exact ((hfirst.map _).filter _).trans (named_prefix_namesOf path)

/-- **The parent begins where the path does.** -/
theorem startOf_parent {path parent : String} (home : Place) (h : parent? path = some parent) :
    startOf home parent = startOf home path := by
  rw [startOf, startOf, isAbsolute_parent h]

end Disk

end ConfigTree
