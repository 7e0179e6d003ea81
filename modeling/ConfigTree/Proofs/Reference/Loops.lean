import ConfigTree.Proofs.Reference.Growth
import ConfigTree.Proofs.Reference.Splitting

/-! # Two loops over one text

Replacing the references of a text and listing their names can each be done in a loop of its own.
Each looks for the next dollar sign, takes the reference there or the dollar sign alone, and goes on
behind it.  It cuts the text at byte offsets, so it has to get right how many bytes a reference
takes, which it adds up from the length of the name.

A cut inside a character makes such a loop fail, and so does a turn that takes nothing.  Neither
happens (`loop_turns`): in every turn both loops take the same characters (`turns_cases`), and they
give what the scan gives.  So a reference is replaced exactly where one is listed (`scans_agree`).
-/
namespace ConfigTree

/-! ### Cuts at byte offsets -/

/-- How many bytes the characters take together. -/
def byteLength (text : List Char) : Nat := weigh Char.utf8Size text

@[simp] theorem byteLength_nil : byteLength [] = 0 := rfl

@[simp] theorem byteLength_cons (c : Char) (rest : List Char) :
    byteLength (c :: rest) = c.utf8Size + byteLength rest := rfl

@[simp] theorem byteLength_append (text other : List Char) :
    byteLength (text ++ other) = byteLength text + byteLength other := weigh_append ..

@[simp] theorem byteLength_toList (text : String) :
    byteLength text.toList = text.utf8ByteSize := weigh_utf8Size text

/-- Cuts a text behind its first `n` bytes.  There is no such cut inside a character or behind the
end. -/
def cutAt? : Nat → List Char → Option (List Char × List Char)
  | 0, text => some ([], text)
  | _ + 1, [] => none
  | n + 1, c :: rest =>
    if c.utf8Size ≤ n + 1 then
      (cutAt? (n + 1 - c.utf8Size) rest).map fun (front, back) => (c :: front, back)
    else none

/-- **A cut is between two characters.** -/
theorem cutAt?_eq_some_iff {n : Nat} {text front back : List Char} :
    cutAt? n text = some (front, back) ↔ text = front ++ back ∧ byteLength front = n := by
  induction text generalizing n front with
  | nil => cases n <;> cases front <;> simp [cutAt?, eq_comm]
  | cons c rest ih =>
    -- a character takes at least a byte: only an empty front has none, and no front ends inside `c`
    have hpos := c.utf8Size_pos
    cases n with
    | zero =>
      cases front with
      | nil => simp [cutAt?]
      | cons d front =>
        have hd := d.utf8Size_pos
        simp only [cutAt?, byteLength_cons]
        constructor
        · intro h
          cases h
        · rintro ⟨-, hbytes⟩
          omega
    | succ n =>
      cases front with
      | nil =>
        simp only [cutAt?, byteLength_nil]
        constructor
        · intro h
          split at h
          · simp at h
          · cases h
        · rintro ⟨-, hbytes⟩
          omega
      | cons d front =>
        by_cases hfits : c.utf8Size ≤ n + 1
        · simp only [cutAt?, if_pos hfits, Option.map_eq_some_iff, Prod.exists, Prod.mk.injEq,
            List.cons.injEq, List.cons_append, byteLength_cons]
          constructor
          · rintro ⟨front', back', hcut, ⟨rfl, rfl⟩, rfl⟩
            obtain ⟨rfl, hbytes⟩ := ih.mp hcut
            exact ⟨⟨rfl, rfl⟩, by omega⟩
          · rintro ⟨⟨rfl, rfl⟩, hbytes⟩
            exact ⟨front, back, ih.mpr ⟨rfl, by omega⟩, ⟨rfl, rfl⟩, rfl⟩
        · simp only [cutAt?, if_neg hfits, reduceCtorEq, false_iff, not_and, List.cons_append,
            List.cons.injEq, byteLength_cons]
          rintro ⟨rfl, -⟩ hbytes
          omega

/-- The offset of the first dollar sign. -/
def dollarAt? : List Char → Option Nat
  | [] => none
  | c :: rest => if c = '$' then some 0 else (dollarAt? rest).map (c.utf8Size + ·)

theorem dollarAt?_of_notMem {text : List Char} (h : '$' ∉ text) : dollarAt? text = none := by
  induction text with
  | nil => rfl
  | cons c rest ih =>
    obtain ⟨hc, hrest⟩ := not_or.mp (fun hor => h (List.mem_cons.mpr hor))
    rw [dollarAt?, if_neg (Ne.symm hc), ih hrest]
    rfl

theorem dollarAt?_append {gap : List Char} (h : '$' ∉ gap) (body : List Char) :
    dollarAt? (gap ++ '$' :: body) = some (byteLength gap) := by
  induction gap with
  | nil => rfl
  | cons c rest ih =>
    obtain ⟨hc, hrest⟩ := not_or.mp (fun hor => h (List.mem_cons.mpr hor))
    rw [List.cons_append, dollarAt?, if_neg (Ne.symm hc), ih hrest]
    rfl

/-- A text has no dollar sign, or a first one. -/
theorem dollar_cases (text : List Char) :
    '$' ∉ text ∨ ∃ gap body, '$' ∉ gap ∧ text = gap ++ '$' :: body := by
  by_cases h : '$' ∈ text
  · obtain ⟨gap, body, rfl, hgap⟩ := List.eq_append_cons_of_mem h
    exact .inr ⟨gap, body, hgap, rfl⟩
  · exact .inl h

namespace Reference

/-- How many bytes a reference to the name takes, its dollar sign counted, where `body` follows the
dollar sign. -/
def bytesAt? (name : String) (body : List Char) : Option Nat :=
  if ('{' :: name.toList ++ ['}']).isPrefixOf body then some (name.utf8ByteSize + 3)
  else if name.toList.isPrefixOf body &&
      !((body.drop name.toList.length).head?.any isWordChar) then some (name.utf8ByteSize + 1)
  else none

/-- The name, the bytes and the text of the reference at the start of a text. -/
def matchBytes? (table : Table) : List Char → Option (String × Nat × String)
  | [] => none
  | c :: body =>
    if c = '$' then
      (table.filter fun leaf => leaf.1 ≠ "").findSome? fun leaf =>
        (bytesAt? leaf.1 body).map fun bytes => (leaf.1, bytes, leaf.2)
    else none

/-- The bytes of a reference are those of its characters. -/
theorem bytesAt?_eq {name : String} (hne : name ≠ "") (body : List Char) :
    bytesAt? name body =
      (lengthAt? name.toList body).map fun length => byteLength ('$' :: body.take length) := by
  have hdollar : '$'.utf8Size = 1 := by decide
  have hopen : '{'.utf8Size = 1 := by decide
  have hclose : '}'.utf8Size = 1 := by decide
  have hname : ¬name.toList.isEmpty = true := by simpa using hne
  rw [bytesAt?, lengthAt?, if_neg hname]
  by_cases hbraced : ('{' :: name.toList ++ ['}']).isPrefixOf body = true
  · obtain ⟨rest, rfl⟩ := List.isPrefixOf_iff_prefix.mp hbraced
    have htake : ('{' :: name.toList ++ ['}'] ++ rest).take (name.toList.length + 2) =
        '{' :: name.toList ++ ['}'] := List.take_left' (by simp)
    rw [if_pos hbraced, if_pos hbraced, Option.map_some, htake]
    simp only [byteLength_cons, byteLength_append, byteLength_nil, byteLength_toList, hdollar,
      hopen, hclose, List.cons_append]
    congr 1
    omega
  · rw [if_neg hbraced, if_neg hbraced]
    split
    · next hbare =>
      obtain ⟨rest, rfl⟩ := List.isPrefixOf_iff_prefix.mp ((Bool.and_eq_true _ _).mp hbare).1
      rw [Option.map_some, List.take_left]
      simp only [byteLength_cons, byteLength_toList, hdollar]
      congr 1
      omega
    · rfl

theorem matchBytes?_eq (table : Table) (body : List Char) :
    matchBytes? table ('$' :: body) = (match? table body).map fun found =>
      (found.name, byteLength ('$' :: body.take found.length), found.value) := by
  rw [matchBytes?, if_pos rfl]
  induction table with
  | nil => rfl
  | cons leaf rest ih =>
    obtain ⟨name, value⟩ := leaf
    by_cases hne : name = ""
    · subst hne
      simpa [match?, lengthAt?] using ih
    · have hbytes := bytesAt?_eq hne body
      cases hlen : lengthAt? name.toList body with
      | none =>
        rw [hlen, Option.map_none] at hbytes
        simpa [match?, hlen, hne, hbytes] using ih
      | some n =>
        rw [hlen, Option.map_some] at hbytes
        simp [match?, hlen, hne, hbytes]

end Reference

/-! ### The loops -/

/-- One turn of the loop that replaces: what it writes, and what is left unless this is the end. -/
def replaceTurn (table : Table) (rest : List Char) : Option (List Char × Option (List Char)) :=
  match dollarAt? rest with
  | none => some (rest, none)
  | some offset => do
    let (before, candidate) ← cutAt? offset rest
    match Reference.matchBytes? table candidate with
    | some (_, bytes, value) => do
      let (_, left) ← cutAt? bytes candidate
      return (before ++ value.toList, some left)
    | none => do
      let (_, left) ← cutAt? 1 candidate
      return (before ++ ['$'], some left)

/-- One turn of the loop that lists names. -/
def namesTurn (table : Table) (rest : List Char) : Option (List String × Option (List Char)) :=
  match dollarAt? rest with
  | none => some ([], none)
  | some offset => do
    let (_, candidate) ← cutAt? offset rest
    match Reference.matchBytes? table candidate with
    | some (name, bytes, _) => do
      let (_, left) ← cutAt? bytes candidate
      return ([name], some left)
    | none => do
      let (_, left) ← cutAt? 1 candidate
      return ([], some left)

/-- Turn after turn until the end.  The loop fails with a cut inside a character, and in a turn that
leaves as much as there was. -/
def loop {Out : Type} (turn : List Char → Option (List Out × Option (List Char)))
    (rest : List Char) : Option (List Out) :=
  match turn rest with
  | none => none
  | some (out, none) => some out
  | some (out, some left) =>
    if left.length < rest.length then (loop turn left).map (out ++ ·) else none
termination_by rest.length

section Turns

variable {table : Table} {gap : List Char} (hgap : '$' ∉ gap)
include hgap

theorem replaceTurn_of_notMem : replaceTurn table gap = some (gap, none) := by
  rw [replaceTurn, dollarAt?_of_notMem hgap]

theorem namesTurn_of_notMem : namesTurn table gap = some ([], none) := by
  rw [namesTurn, dollarAt?_of_notMem hgap]

/-- A dollar sign with no reference is taken alone. -/
theorem turns_of_none {body : List Char} (hm : Reference.match? table body = none) :
    replaceTurn table (gap ++ '$' :: body) = some (gap ++ ['$'], some body) ∧
      namesTurn table (gap ++ '$' :: body) = some ([], some body) := by
  have hbefore : cutAt? (byteLength gap) (gap ++ '$' :: body) = some (gap, '$' :: body) :=
    cutAt?_eq_some_iff.mpr ⟨rfl, rfl⟩
  have hsign : cutAt? 1 ('$' :: body) = some (['$'], body) :=
    cutAt?_eq_some_iff.mpr ⟨rfl, by decide⟩
  have hmatch := Reference.matchBytes?_eq table body
  rw [hm, Option.map_none] at hmatch
  simp [replaceTurn, namesTurn, dollarAt?_append hgap, hbefore, hmatch, hsign]

/-- A reference is taken whole. -/
theorem turns_of_some {token left : List Char} {found : Reference}
    (hm : Reference.match? table (token ++ left) = some found)
    (hlen : token.length = found.length) :
    replaceTurn table (gap ++ '$' :: (token ++ left)) =
        some (gap ++ found.value.toList, some left) ∧
      namesTurn table (gap ++ '$' :: (token ++ left)) = some ([found.name], some left) := by
  have hbefore : cutAt? (byteLength gap) (gap ++ '$' :: (token ++ left)) =
      some (gap, '$' :: (token ++ left)) := cutAt?_eq_some_iff.mpr ⟨rfl, rfl⟩
  have htoken : cutAt? (byteLength ('$' :: token)) ('$' :: (token ++ left)) =
      some ('$' :: token, left) := cutAt?_eq_some_iff.mpr ⟨rfl, rfl⟩
  have hmatch := Reference.matchBytes?_eq table (token ++ left)
  rw [hm, Option.map_some, ← hlen, List.take_left] at hmatch
  simp [replaceTurn, namesTurn, dollarAt?_append hgap, hbefore, hmatch, htoken,
    -byteLength_cons]

end Turns

/-- **In every turn both loops take the same**, at least a character, and they give what the scan
gives for it. -/
theorem turns_cases (table : Table) (rest : List Char) :
    (replaceTurn table rest = some (rest, none) ∧ namesTurn table rest = some ([], none) ∧
        rewritten table rest = rest ∧ namesIn table rest = []) ∨
      ∃ written names taken left, taken ≠ [] ∧ rest = taken ++ left ∧
        replaceTurn table rest = some (written, some left) ∧
        namesTurn table rest = some (names, some left) ∧
        rewritten table rest = written ++ rewritten table left ∧
        namesIn table rest = names ++ namesIn table left := by
  rcases dollar_cases rest with hrest | ⟨gap, body, hgap, rfl⟩
  · have hquiet : Quiet table rest [] := quiet_of_notMem hrest
    obtain ⟨hwritten, hlisted⟩ := hquiet.scan_eq
    exact .inl ⟨replaceTurn_of_notMem hrest, namesTurn_of_notMem hrest, hwritten, hlisted⟩
  · have hquiet : Quiet table gap ('$' :: body) := quiet_of_notMem hgap
    obtain ⟨hwritten, hlisted⟩ := hquiet.scan_append
    rw [hwritten, hlisted]
    cases hm : Reference.match? table body with
    | none =>
      obtain ⟨hreplace, hnames⟩ := turns_of_none hgap hm
      obtain ⟨hwritten', hlisted'⟩ := scan_char fun _ => hm
      rw [hwritten', hlisted']
      exact .inr ⟨_, _, gap ++ ['$'], body, by simp, by simp, hreplace, hnames, by simp, rfl⟩
    | some found =>
      have hcut := List.take_append_drop found.length body
      have hlen := List.length_take_of_le (Reference.length_le_of_match? hm)
      generalize body.take found.length = token at hcut hlen
      generalize body.drop found.length = left at hcut
      subst hcut
      obtain ⟨hreplace, hnames⟩ := turns_of_some hgap hm hlen
      obtain ⟨hwritten', hlisted'⟩ := scan_reference hm hlen
      rw [hwritten', hlisted']
      exact .inr ⟨_, _, gap ++ '$' :: token, left, by simp, by simp, hreplace, hnames, by simp,
        rfl⟩

/-- **Neither loop fails**, and both give what the scan gives. -/
theorem loop_turns (table : Table) (text : List Char) :
    loop (replaceTurn table) text = some (rewritten table text) ∧
      loop (namesTurn table) text = some (namesIn table text) := by
  induction hn : text.length using Nat.strongRecOn generalizing text with
  | ind n ih =>
    subst hn
    rw [loop, loop]
    rcases turns_cases table text with ⟨hreplace, hnames, hwritten, hlisted⟩ |
      ⟨written, names, taken, left, htaken, rfl, hreplace, hnames, hwritten, hlisted⟩
    · rw [hreplace, hnames, hwritten, hlisted]
      exact ⟨rfl, rfl⟩
    · -- what a turn takes is not empty, so the rest is shorter and the loop goes on
      have hshorter : left.length < (taken ++ left).length := by
        have := List.length_pos_of_ne_nil htaken
        rw [List.length_append]
        omega
      obtain ⟨hleft, hleft'⟩ := ih _ hshorter left rfl
      rw [hreplace, hnames]
      simp only [if_pos hshorter, hleft, hleft', hwritten, hlisted, Option.map_some, and_self]

/-- **The two scans agree.**  Every text has a split into references and gaps, and whatever it is,
the names of its references are those that are listed, and their texts stand in their place when
they are replaced, so a text with nothing listed is not changed.  The two loops never fail, and each
of their turns takes at least a character and as many as that of the other. -/
theorem scans_agree (table : Table) (text : String) :
    (∃ front parts, Split table text.toList front parts) ∧
    (∀ front parts, Split table text.toList front parts →
      text.toList = front ++ parts.flatMap (fun part => part.token ++ part.gap) ∧
      (∀ part ∈ parts, Entries.get? table part.name = some part.value) ∧
      referencesIn table text = parts.map Part.name ∧
      (substituteText table text).toList =
        front ++ parts.flatMap fun part => part.value.toList ++ part.gap) ∧
    (referencesIn table text = [] → substituteText table text = text) ∧
    loop (replaceTurn table) text.toList = some (substituteText table text).toList ∧
    loop (namesTurn table) text.toList = some (referencesIn table text) ∧
    ∀ rest,
      (replaceTurn table rest = some (rest, none) ∧ namesTurn table rest = some ([], none)) ∨
      ∃ written names taken left, taken ≠ [] ∧ rest = taken ++ left ∧
        replaceTurn table rest = some (written, some left) ∧
        namesTurn table rest = some (names, some left) := by
  obtain ⟨hreplace, hlist⟩ := loop_turns table text.toList
  refine ⟨exists_split table text.toList, fun front parts h => ?_, fun h => ?_, ?_, hlist,
    fun rest => ?_⟩
  · obtain ⟨hwritten, hlisted⟩ := h.scan_eq
    exact ⟨h.text_eq, fun part hp => h.get?_of_mem hp, hlisted,
      (substituteText_toList table text).trans hwritten⟩
  · exact substituteText_eq_iff.mpr (rewritten_eq_self h)
  · rw [hreplace, substituteText_toList]
  · rcases turns_cases table rest with ⟨hreplace, hnames, -, -⟩ |
      ⟨written, names, taken, left, htaken, happend, hreplace, hnames, -, -⟩
    · exact .inl ⟨hreplace, hnames⟩
    · exact .inr ⟨written, names, taken, left, htaken, happend, hreplace, hnames⟩

/-- In `€$${ä}$a.b` the first dollar sign begins nothing, the text of `ä` is not scanned
again, and `a` comes before `a.b` in the table. -/
theorem scans_agree_overlapping :
    let table : Table := [("ä", "$a"), ("a", "1"), ("a.b", "2")]
    let text := "€$$\x7bä\x7d$a.b"
    (referencesIn table text = ["ä", "a"] ∧
        (substituteText table text).toList = "€$$a1.b".toList) ∧
      loop (replaceTurn table) text.toList = some (substituteText table text).toList ∧
      referencesIn table "$ab€$" = [] ∧ substituteText table "$ab€$" = "$ab€$" := by
  intro table text
  have hbraced : Part.IsFirst ⟨"ä", "$a", "$\x7bä\x7d".toList, []⟩ table "$a.b".toList :=
    ⟨.braced _ (by decide), [], _, rfl, by simp⟩
  have hbare : Part.IsFirst ⟨"a", "1", "$a".toList, ".b".toList⟩ table ".b".toList := by
    refine ⟨.bare (by decide) (by decide) (by decide), [("ä", "$a")], [("a.b", "2")], rfl, ?_⟩
    rw [List.forall_mem_singleton]
    exact fun h => absurd (Reference.beginsWith_iff.mp h) (by decide)
  have hfront : Quiet table ['€', '$'] ("$\x7bä\x7d".toList ++ "$a.b".toList) :=
    quiet_cons_iff.mpr ⟨by decide, quiet_cons_iff.mpr ⟨by decide +kernel, quiet_nil _ _⟩⟩
  have hlast : Split table ".b".toList ".b".toList [] := .last (quiet_of_notMem (by decide))
  have hsplit : Split table text.toList ['€', '$']
      [⟨"ä", "$a", "$\x7bä\x7d".toList, []⟩, ⟨"a", "1", "$a".toList, ".b".toList⟩] := by
    have htext : text.toList = ['€', '$'] ++ ("$\x7bä\x7d".toList ++ "$a.b".toList) := by
      decide +kernel
    rw [htext]
    exact .part hfront hbraced (.part (quiet_nil _ _) hbare hlast)
  obtain ⟨-, -, hnames, hwritten⟩ := (scans_agree table text).2.1 _ _ hsplit
  have hnothing : referencesIn table "$ab€$" = [] := by decide +kernel
  exact ⟨⟨hnames, hwritten⟩, (scans_agree table text).2.2.2.1, hnothing,
    (scans_agree table "$ab€$").2.2.1 hnothing⟩

end ConfigTree
