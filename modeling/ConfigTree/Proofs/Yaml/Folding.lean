import ConfigTree.Proofs.Yaml.Escape

/-! # Gaps between quotes

Between quotes a line end stands for something else than itself: the blanks around it are dropped,
and the first of several line ends is, unless it is a line or paragraph separator (`foldGap`).  So a
text is read back only if its gaps stand for themselves.  `keepsGaps` says when they do:
`quoted_spells` for a text between double quotes, in which some characters are escaped, and
`quoted_singleText` for one between single quotes, which are not used for any other text.
-/
namespace ConfigTree.Yaml

/-! ### Normalized texts -/

/-- A character as the reader sees it, if no carriage return stands before it. -/
def normalizeBreak (c : Char) : Char := if c == '\r' || c == '\x85' then '\n' else c

theorem normalizeBreaks_eq_map {cs : List Char} (h : '\r' ∉ cs) :
    normalizeBreaks cs = cs.map normalizeBreak := by
  induction cs with
  | nil => rfl
  | cons c rest ih =>
    rw [List.mem_cons, not_or] at h
    rw [normalizeBreaks.eq_def]
    split
    · next heq => cases heq
    · next heq => exact absurd (List.cons.inj heq).1.symm h.1
    · next heq =>
      obtain ⟨rfl, rfl⟩ := List.cons.inj heq
      rw [ih h.2]
      rfl

theorem normalizeBreak_of_no_break {c : Char} (h : isBreak c = false) : normalizeBreak c = c := by
  simp only [isBreak, Bool.or_eq_false_iff] at h
  simp [normalizeBreak, h.1.1.1.2, h.1.1.2]

theorem isBreak_normalizeBreak (c : Char) : isBreak (normalizeBreak c) = isBreak c := by
  unfold normalizeBreak
  split
  · next h =>
    rw [Bool.or_eq_true, beq_iff_eq, beq_iff_eq] at h
    rcases h with rfl | rfl <;> decide
  · rfl

theorem map_normalizeBreak {cs : List Char} (h : ∀ c ∈ cs, isBreak c = false) :
    cs.map normalizeBreak = cs := by
  rw [List.map_congr_left fun c hc => normalizeBreak_of_no_break (h c hc), List.map_id']

theorem isGap_normalizeBreak (c : Char) : isGap (normalizeBreak c) = isGap c := by
  unfold normalizeBreak
  split
  · next h =>
    rw [Bool.or_eq_true, beq_iff_eq, beq_iff_eq] at h
    rcases h with rfl | rfl <;> decide
  · rfl

theorem normalizeBreak_of_no_gap {c : Char} (h : isGap c = false) : normalizeBreak c = c := by
  rw [isGap, Bool.or_eq_false_iff] at h
  exact normalizeBreak_of_no_break h.2

theorem normalizeBreak_ne (c : Char) : normalizeBreak c ≠ '\x85' := by
  unfold normalizeBreak
  split
  · decide
  · next h =>
    rintro rfl
    exact h rfl

theorem head?_map_normalizeBreak {cs : List Char} (h : cs.head?.any isGap = false) :
    (cs.map normalizeBreak).head?.any isGap = false := by
  cases cs with
  | nil => rfl
  | cons c rest => simpa [isGap_normalizeBreak] using h

/-- Whether a mark stands here does not depend on the kinds of line ends. -/
theorem startsMark_map_normalizeBreak (cs : List Char) :
    startsMark (cs.map normalizeBreak) = startsMark cs := by
  have hsign : ∀ sign, isGap sign = false → ∀ c, (sign == normalizeBreak c) = (sign == c) := by
    intro sign hsign c
    unfold normalizeBreak
    split
    · next h =>
      rw [Bool.or_eq_true, beq_iff_eq, beq_iff_eq] at h
      rw [beq_eq_false_iff_ne.mpr, beq_eq_false_iff_ne.mpr]
      · rintro rfl
        rcases h with rfl | rfl <;> cases hsign
      · rintro rfl
        cases hsign
    · rfl
  have hsame : ∀ sign, isGap sign = false →
      [sign, sign, sign].isPrefixOf (cs.map normalizeBreak) = [sign, sign, sign].isPrefixOf cs := by
    intro sign hgap
    rcases cs with _ | ⟨a, _ | ⟨b, _ | ⟨c, rest⟩⟩⟩ <;>
      simp [List.isPrefixOf, hsign sign hgap]
  have hstarts : startsGap ((cs.map normalizeBreak).drop 3) = startsGap (cs.drop 3) := by
    rw [← List.map_drop]
    cases cs.drop 3 with
    | nil => rfl
    | cons c rest => exact isGap_normalizeBreak c
  unfold startsMark
  rw [hsame '-' (by decide), hsame '.' (by decide), hstarts]

/-! ### Texts by their gaps -/

/-- A text is empty, or begins with a character outside a gap or with a whole gap. -/
theorem gapInduction (inGap : Char → Bool) {P : List Char → Prop} (nil : P [])
    (other : ∀ c rest, inGap c = false → P rest → P (c :: rest))
    (gap : ∀ gap rest, gap ≠ [] → (∀ c ∈ gap, inGap c = true) → rest.head?.any inGap = false →
      P rest → P (gap ++ rest)) (cs : List Char) : P cs := by
  induction hn : cs.length using Nat.strongRecOn generalizing cs with
  | ind n ih =>
    subst hn
    cases cs with
    | nil => exact nil
    | cons c rest =>
      cases hc : inGap c with
      | false => exact other c rest hc (ih rest.length (by simp) rest rfl)
      | true =>
        have hlength : ((c :: rest).dropWhile inGap).length < (c :: rest).length := by
          rw [List.dropWhile_cons_of_pos hc, List.length_cons]
          exact Nat.lt_succ_of_le (List.dropWhile_sublist inGap).length_le
        have hafter : ((c :: rest).dropWhile inGap).head?.any inGap = false := by
          have hhead := List.head?_dropWhile_not inGap (c :: rest)
          cases hdrop : ((c :: rest).dropWhile inGap).head? with
          | none => rfl
          | some d =>
            rw [hdrop] at hhead
            exact hhead
        rw [← List.takeWhile_append_dropWhile (p := inGap) (l := c :: rest)]
        refine gap _ _ ?_ ?_ hafter (ih _ hlength _ rfl)
        · simp [hc]
        · exact List.all_eq_true.mp List.all_takeWhile

theorem ne_of_no_gap {c : Char} (h : isGap c = false) :
    isBreak c = false ∧ c ≠ ' ' ∧ c ≠ '\x85' := by
  refine ⟨?_, ?_, ?_⟩
  · rw [isGap, Bool.or_eq_false_iff] at h
    exact h.2
  · rintro rfl
    cases h
  · rintro rfl
    cases h

theorem head?_of_no_gap {cs : List Char} (h : cs.head?.any isGap = false) :
    cs.head?.any isBreak = false ∧ cs.head? ≠ some ' ' := by
  cases cs with
  | nil => exact ⟨rfl, by simp⟩
  | cons c rest =>
    obtain ⟨hbreak, hspace, -⟩ := ne_of_no_gap (c := c) (by simpa using h)
    exact ⟨by simpa using hbreak, by simpa using hspace⟩

/-! ### Gaps that stand for themselves -/

/-- Does a document mark follow the end of a line between double quotes? -/
def markAfterBreak : List Char → Bool
  | [] => false
  | c :: rest => (isBreak c && startsMark (rest ++ ['"'])) || markAfterBreak rest

/-- Do the gaps of a text between double quotes stand for themselves?  The next-line character does
not, as it is read like a line feed. -/
def keepsGaps (cs : List Char) : Bool :=
  !cs.contains '\x85' && !spaceAfterBreak cs && !spaceBeforeBreak cs && !markAfterBreak cs

theorem spaceAfterBreak_cons {c : Char} (h : isBreak c = false) (rest : List Char) :
    spaceAfterBreak (c :: rest) = spaceAfterBreak rest := by
  cases rest <;> simp [spaceAfterBreak, h]

theorem spaceBeforeBreak_cons {c : Char} (h : c ≠ ' ') (rest : List Char) :
    spaceBeforeBreak (c :: rest) = spaceBeforeBreak rest := by
  cases rest <;> simp [spaceBeforeBreak, h]

theorem spaceAfterBreak_append {a b : List Char} (hb : b.head? ≠ some ' ') :
    spaceAfterBreak (a ++ b) = (spaceAfterBreak a || spaceAfterBreak b) := by
  induction a with
  | nil => rfl
  | cons x rest ih =>
    cases rest with
    | nil =>
      cases b with
      | nil => rfl
      | cons y ys =>
        have hy : (y == ' ') = false := by simpa using hb
        simp [spaceAfterBreak, hy]
    | cons y ys =>
      simp only [List.cons_append] at ih ⊢
      rw [spaceAfterBreak, spaceAfterBreak, ih, Bool.or_assoc]

theorem spaceBeforeBreak_append {a b : List Char} (hb : b.head?.any isBreak = false) :
    spaceBeforeBreak (a ++ b) = (spaceBeforeBreak a || spaceBeforeBreak b) := by
  induction a with
  | nil => rfl
  | cons x rest ih =>
    cases rest with
    | nil =>
      cases b with
      | nil => rfl
      | cons y ys =>
        have hy : isBreak y = false := by simpa using hb
        simp [spaceBeforeBreak, hy]
    | cons y ys =>
      simp only [List.cons_append] at ih ⊢
      rw [spaceBeforeBreak, spaceBeforeBreak, ih, Bool.or_assoc]

theorem spaceAfterBreak_of_no_break {cs : List Char} (h : ∀ c ∈ cs, isBreak c = false) :
    spaceAfterBreak cs = false := by
  induction cs with
  | nil => rfl
  | cons x rest ih =>
    obtain ⟨hx, hrest⟩ := List.forall_mem_cons.mp h
    cases rest with
    | nil => rfl
    | cons y ys => rw [spaceAfterBreak, hx, Bool.false_and, Bool.false_or, ih hrest]

theorem spaceBeforeBreak_of_no_break {cs : List Char} (h : ∀ c ∈ cs, isBreak c = false) :
    spaceBeforeBreak cs = false := by
  induction cs with
  | nil => rfl
  | cons x rest ih =>
    obtain ⟨-, hrest⟩ := List.forall_mem_cons.mp h
    cases rest with
    | nil => rfl
    | cons y ys =>
      rw [spaceBeforeBreak, hrest y (by simp), Bool.and_false, Bool.false_or, ih hrest]

theorem spaceAfterBreak_of_no_space {cs : List Char} (h : ' ' ∉ cs) :
    spaceAfterBreak cs = false := by
  induction cs with
  | nil => rfl
  | cons x rest ih =>
    rw [List.mem_cons, not_or] at h
    cases rest with
    | nil => rfl
    | cons y ys =>
      have hy : (y == ' ') = false := by simpa using fun hy : y = ' ' => h.2 (by simp [hy])
      rw [spaceAfterBreak, hy, Bool.and_false, Bool.false_or, ih h.2]

theorem spaceBeforeBreak_of_no_space {cs : List Char} (h : ' ' ∉ cs) :
    spaceBeforeBreak cs = false := by
  induction cs with
  | nil => rfl
  | cons x rest ih =>
    rw [List.mem_cons, not_or] at h
    cases rest with
    | nil => rfl
    | cons y ys =>
      have hx : (x == ' ') = false := by simpa using Ne.symm h.1
      rw [spaceBeforeBreak, hx, Bool.false_and, Bool.false_or, ih h.2]

theorem markAfterBreak_of_no_break {cs : List Char} (h : ∀ c ∈ cs, isBreak c = false) :
    markAfterBreak cs = false := by
  induction cs with
  | nil => rfl
  | cons c rest ih =>
    obtain ⟨hc, hrest⟩ := List.forall_mem_cons.mp h
    rw [markAfterBreak, hc, ih hrest, Bool.false_and, Bool.or_self]

/-- A mark can follow only the last character of a gap. -/
theorem markAfterBreak_gap {gap : List Char} (hne : gap ≠ []) (hgap : ∀ c ∈ gap, isGap c = true)
    (rest : List Char) :
    markAfterBreak (gap ++ rest) =
      ((gap.getLast?.any isBreak && startsMark (rest ++ ['"'])) || markAfterBreak rest) := by
  induction gap with
  | nil => exact absurd rfl hne
  | cons c more ih =>
    obtain ⟨-, hmore⟩ := List.forall_mem_cons.mp hgap
    cases more with
    | nil => simp [markAfterBreak]
    | cons d ds =>
      have hmark : startsMark (d :: ds ++ rest ++ ['"']) = false := by
        have hd : isGap d = true := hmore d (by simp)
        have hsign : ∀ sign, isGap sign = false → (sign == d) = false := by
          intro sign hsign
          rw [beq_eq_false_iff_ne]
          rintro rfl
          rw [hd] at hsign
          cases hsign
        simp [startsMark, List.isPrefixOf, hsign '-' (by decide), hsign '.' (by decide)]
      rw [List.cons_append, markAfterBreak, hmark, Bool.and_false, Bool.false_or,
        ih (List.cons_ne_nil _ _) hmore, List.getLast?_cons_cons]

/-- A gap without spaces next to line ends consists of spaces or of line ends. -/
theorem spaces_or_breaks {gap : List Char} (hgap : ∀ c ∈ gap, c = ' ' ∨ isBreak c = true)
    (hafter : spaceAfterBreak gap = false) (hbefore : spaceBeforeBreak gap = false) :
    (∀ c ∈ gap, c = ' ') ∨ ∀ c ∈ gap, isBreak c = true := by
  induction gap with
  | nil => exact .inl (by simp)
  | cons x rest ih =>
    obtain ⟨hx, hrest⟩ := List.forall_mem_cons.mp hgap
    cases rest with
    | nil => simpa using hx
    | cons y ys =>
      simp only [spaceAfterBreak, spaceBeforeBreak, Bool.or_eq_false_iff] at hafter hbefore
      rcases hx with rfl | hx <;> rcases ih hrest hafter.2 hbefore.2 with h | h
      · exact .inl (List.forall_mem_cons.mpr ⟨rfl, h⟩)
      · exact absurd hbefore.1 (by simp [h y (by simp)])
      · exact absurd hafter.1 (by simp [h y (by simp), hx])
      · exact .inr (List.forall_mem_cons.mpr ⟨hx, h⟩)

/-! ### Folded gaps -/

theorem length_foldGap_le (gap : List Char) : (foldGap gap).length ≤ gap.length := by
  have hle : (gap.filter isBreak).length ≤ gap.length := List.length_filter_le _ _
  unfold foldGap
  split
  · exact Nat.le_refl _
  · next h => simpa [h] using hle
  · next h =>
    rw [h, List.length_cons] at hle
    omega
  · exact hle

theorem foldGap_of_no_break {gap : List Char} (h : ∀ c ∈ gap, isBreak c = false) :
    foldGap gap = gap := by
  have hfilter : gap.filter isBreak = [] := by simpa using h
  rw [foldGap, hfilter]

/-- Line ends other than line feeds are kept, spaces behind them are not. -/
theorem foldGap_of_breaks {gap : List Char} (hne : gap ≠ []) (h : ∀ c ∈ gap, isBreak c = true)
    (hfeed : '\n' ∉ gap) (n : Nat) : foldGap (gap ++ List.replicate n ' ') = gap := by
  have hspaces : (List.replicate n ' ').filter isBreak = [] := by simp [isBreak]
  have hfilter : (gap ++ List.replicate n ' ').filter isBreak = gap := by
    rw [List.filter_append, hspaces, List.append_nil, List.filter_eq_self]
    exact h
  unfold foldGap
  rw [hfilter]
  split
  · exact absurd rfl hne
  · exact absurd (List.mem_cons_self ..) hfeed
  · exact absurd (List.mem_cons_self ..) hfeed
  · rfl

/-- A gap that stands as it is written between double quotes. -/
def WrittenGap (gap : List Char) : Prop :=
  ∀ c ∈ gap, c = ' ' ∨ isBreak c = true ∧ c ≠ '\n' ∧ c ≠ '\r'

theorem WrittenGap.isGap {gap : List Char} (h : WrittenGap gap) : ∀ c ∈ gap, isGap c = true := by
  intro c hc
  rcases h c hc with rfl | ⟨hbreak, -⟩
  · rfl
  · rw [Yaml.isGap, hbreak, Bool.or_true]

theorem WrittenGap.no_feed {gap : List Char} (h : WrittenGap gap) : '\n' ∉ gap := by
  intro hc
  rcases h _ hc with hspace | ⟨-, hfeed, -⟩
  · exact absurd hspace (by decide)
  · exact hfeed rfl

theorem WrittenGap.map_normalizeBreak {gap : List Char} (h : WrittenGap gap)
    (hnext : '\x85' ∉ gap) : gap.map normalizeBreak = gap := by
  have hsame : ∀ c ∈ gap, normalizeBreak c = c := by
    intro c hc
    have hc85 : c ≠ '\x85' := fun heq => hnext (heq ▸ hc)
    have hreturn : c ≠ '\r' := by
      rcases h c hc with rfl | ⟨-, -, hreturn⟩
      · decide
      · exact hreturn
    simp [normalizeBreak, hreturn, hc85]
  rw [List.map_congr_left hsame, List.map_id']

/-- **When a gap stands for itself.** -/
theorem foldGap_eq_self_iff {gap : List Char} (hgap : WrittenGap gap) :
    foldGap (gap.map normalizeBreak) = gap ↔
      '\x85' ∉ gap ∧ spaceAfterBreak gap = false ∧ spaceBeforeBreak gap = false := by
  constructor
  · intro h
    by_cases hbreaks : ∀ c ∈ gap, isBreak c = false
    · refine ⟨fun hmem => ?_, spaceAfterBreak_of_no_break hbreaks,
        spaceBeforeBreak_of_no_break hbreaks⟩
      exact absurd (hbreaks _ hmem) (by decide)
    -- The gap folds to its line ends, so it has no spaces and is not shortened.
    have hfilter : (gap.map normalizeBreak).filter isBreak = gap := by
      unfold foldGap at h
      split at h
      · next hnone =>
        refine absurd (fun c hc => ?_) hbreaks
        have hc := List.filter_eq_nil_iff.mp hnone _ (List.mem_map_of_mem hc)
        simpa [isBreak_normalizeBreak] using hc
      · exact absurd (by simp [← h, isBreak]) hbreaks
      · next hmore =>
        have hle := List.length_filter_le isBreak (gap.map normalizeBreak)
        rw [hmore, h, List.length_map, List.length_cons] at hle
        omega
      · exact h
    have hmem : ∀ c ∈ gap, c ∈ gap.map normalizeBreak ∧ isBreak c = true := by
      intro c hc
      rw [← hfilter, List.mem_filter] at hc
      exact hc
    have hspace : ' ' ∉ gap := fun hc => absurd (hmem ' ' hc).2 (by decide)
    refine ⟨fun hc => ?_, spaceAfterBreak_of_no_space hspace, spaceBeforeBreak_of_no_space hspace⟩
    obtain ⟨d, -, hd⟩ := List.mem_map.mp (hmem _ hc).1
    exact normalizeBreak_ne d hd
  · rintro ⟨hnext, hafter, hbefore⟩
    rw [hgap.map_normalizeBreak hnext]
    rcases spaces_or_breaks (fun c hc => (hgap c hc).imp_right And.left) hafter hbefore with h | h
    · exact foldGap_of_no_break fun c hc => by rw [h c hc]; decide
    by_cases hne : gap = []
    · rw [hne]
      rfl
    simpa using foldGap_of_breaks hne h hgap.no_feed 0

/-! ### Texts that keep their gaps -/

theorem keepsGaps_cons {c : Char} (h : isGap c = false) (rest : List Char) :
    keepsGaps (c :: rest) = keepsGaps rest := by
  obtain ⟨hbreak, hspace, hnext⟩ := ne_of_no_gap h
  simp [keepsGaps, spaceAfterBreak_cons hbreak, spaceBeforeBreak_cons hspace, markAfterBreak,
    hbreak, Ne.symm hnext]

theorem keepsGaps_append {written : List Char} (h : ∀ c ∈ written, isGap c = false)
    (rest : List Char) : keepsGaps (written ++ rest) = keepsGaps rest := by
  induction written with
  | nil => rfl
  | cons c more ih =>
    obtain ⟨hc, hmore⟩ := List.forall_mem_cons.mp h
    rw [List.cons_append, keepsGaps_cons hc, ih hmore]

theorem keepsGaps_gap {gap rest : List Char} (hne : gap ≠ []) (hgap : WrittenGap gap)
    (hrest : rest.head?.any isGap = false) :
    keepsGaps (gap ++ rest) = true ↔
      foldGap (gap.map normalizeBreak) = gap ∧
      (gap.getLast?.any isBreak && startsMark (rest ++ ['"'])) = false ∧
      keepsGaps rest = true := by
  obtain ⟨hbreak, hspace⟩ := head?_of_no_gap hrest
  rw [foldGap_eq_self_iff hgap]
  simp only [keepsGaps, List.contains_append, spaceAfterBreak_append hspace,
    spaceBeforeBreak_append hbreak, markAfterBreak_gap hne hgap.isGap, Bool.and_eq_true,
    Bool.not_eq_true', List.contains_iff_mem, ← Bool.not_eq_true]
  grind

/-! ### Between double quotes -/

/-- Whether a text is read back, or something that is not longer. -/
structure ReadsBack (cs : List Char) (kept : Prop) (outcome : Except Error (List Char)) : Prop where
  eq_iff : outcome = .ok cs ↔ kept
  length : ∀ {text}, outcome = .ok text → text.length ≤ cs.length

/-- Behind something that is read as `front` the rest is read back as before, unless `front` is not
what was written. -/
theorem ReadsBack.behind {cs written front : List Char} {kept kept' : Prop}
    {outcome : Except Error (List Char)} (h : ReadsBack cs kept outcome)
    (hfront : front.length ≤ written.length) (hkept : kept' ↔ front = written ∧ kept) :
    ReadsBack (written ++ cs) kept' (outcome.map (front ++ ·)) := by
  cases outcome with
  | error e =>
    have hlost : ¬ kept := fun hkeeps => nomatch h.eq_iff.mpr hkeeps
    refine ⟨iff_of_false (by rintro ⟨⟩) fun hk => hlost (hkept.mp hk).2, ?_⟩
    rintro _ ⟨⟩
  | ok text =>
    have hlength : text.length ≤ cs.length := h.length rfl
    have heq : text = cs ↔ kept := by simpa using h.eq_iff
    refine ⟨?_, fun heq => ?_⟩
    · rw [hkept, ← heq]
      constructor
      · intro hread
        have hread : front ++ text = written ++ cs := by simpa [Except.map] using hread
        -- Neither part is longer than what was written, so none is shorter.
        have htotal := congrArg List.length hread
        rw [List.length_append, List.length_append] at htotal
        exact List.append_inj hread (by omega)
      · rintro ⟨rfl, rfl⟩
        rfl
    · obtain rfl : front ++ text = _ := by simpa [Except.map] using heq
      rw [List.length_append, List.length_append]
      omega

/-- What is read of a text, as it is written between double quotes, is the text exactly if the gaps
that are written stand for themselves. -/
def KeptByGaps (cs written : List Char) : Prop :=
  ∃ outcome, Quoted false (written.map normalizeBreak) outcome ∧
    ReadsBack cs (keepsGaps written = true) outcome

theorem KeptByGaps.nil : KeptByGaps [] [] := by
  refine ⟨.ok [], .close, ?_, ?_⟩
  · simp [keepsGaps, spaceAfterBreak, spaceBeforeBreak, markAfterBreak]
  · rintro _ ⟨⟩
    exact Nat.le_refl _

/-- A character in front, spelled so that it is part of no gap. -/
theorem KeptByGaps.spelled {cs rest : List Char} (h : KeptByGaps cs rest) {c : Char}
    {written : List Char} (hspells : Spells c written) (hc : isGap c = true → written ≠ [c]) :
    KeptByGaps (c :: cs) (written ++ rest) := by
  obtain ⟨outcome, hquoted, hback⟩ := h
  rw [KeptByGaps, List.map_append]
  cases hspells with
  | plain hquote hslash =>
    have hc : isGap c = false := by simpa using hc
    have hraw : isRaw false c = true := by simp [isRaw, hc, quoteChar, hquote, hslash]
    refine ⟨_, ?_, hback.behind (Nat.le_refl [c].length) ?_⟩
    · rw [List.map_singleton, normalizeBreak_of_no_gap hc]
      exact .raw hraw hquoted
    · rw [List.singleton_append, keepsGaps_cons hc]
      simp
  | @escape written hplain hread =>
    have hbreak : ∀ x ∈ written, isBreak x = false := fun x hx => (ne_of_no_gap (hplain x hx)).1
    have hslash : normalizeBreak '\\' = '\\' := by decide
    have hplain' : ∀ x ∈ '\\' :: written, isGap x = false :=
      List.forall_mem_cons.mpr ⟨by decide, hplain⟩
    refine ⟨_, ?_, hback.behind (Nat.le_refl [c].length) ?_⟩
    · rw [List.map_cons, hslash, map_normalizeBreak hbreak]
      exact .escape rfl hbreak hread hquoted
    · rw [keepsGaps_append hplain']
      simp

theorem getLast?_map_normalizeBreak (gap : List Char) :
    (gap.map normalizeBreak).getLast?.any isBreak = gap.getLast?.any isBreak := by
  rw [List.getLast?_map]
  cases gap.getLast? <;> simp [isBreak_normalizeBreak]

theorem startsMark_closed (rest : List Char) :
    startsMark (rest.map normalizeBreak ++ [quoteChar false]) = startsMark (rest ++ ['"']) := by
  rw [← startsMark_map_normalizeBreak (rest ++ ['"']), List.map_append]
  rfl

/-- A gap in front. -/
theorem KeptByGaps.gap {cs rest : List Char} (h : KeptByGaps cs rest) {gap : List Char}
    (hne : gap ≠ []) (hgap : WrittenGap gap) (hrest : rest.head?.any isGap = false) :
    KeptByGaps (gap ++ cs) (gap ++ rest) := by
  obtain ⟨outcome, hquoted, hback⟩ := h
  have hne' : gap.map normalizeBreak ≠ [] := by simpa using hne
  have hgap' : ∀ c ∈ gap.map normalizeBreak, isGap c = true := by
    simpa [isGap_normalizeBreak] using hgap.isGap
  rw [KeptByGaps, List.map_append]
  cases hends : gap.getLast?.any isBreak && startsMark (rest ++ ['"']) with
  | true =>
    -- The reader takes a document mark for the end of the text, whatever the gap folds to.
    refine ⟨_, .mark hne' hgap' (head?_map_normalizeBreak hrest) ?_, ?_, fun h => nomatch h⟩
    · rw [getLast?_map_normalizeBreak, startsMark_closed, hends]
    · rw [keepsGaps_gap hne hgap hrest, hends]
      simp
  | false =>
    refine ⟨_, .gap hne' hgap' (head?_map_normalizeBreak hrest) ?_ hquoted, hback.behind ?_ ?_⟩
    · rw [getLast?_map_normalizeBreak, startsMark_closed, hends]
    · have hle := length_foldGap_le (gap.map normalizeBreak)
      rwa [List.length_map] at hle
    · rw [keepsGaps_gap hne hgap hrest, hends]
      simp

theorem head?_flatMap_spells {f : Char → List Char} (hf : ∀ c, Spells c (f c)) {cs : List Char}
    (h : cs.head?.any (fun c => isGap c && f c == [c]) = false) :
    (cs.flatMap f).head?.any isGap = false := by
  cases cs with
  | nil => rfl
  | cons c rest =>
    have hc : (isGap c && f c == [c]) = false := by simpa using h
    have hspells := hf c
    rw [List.flatMap_cons]
    simp only [Bool.and_eq_false_imp, beq_eq_false_iff_ne] at hc
    generalize f c = written at hspells hc
    cases hspells with
    | plain _ _ => simpa using hc
    | escape _ _ => rfl

/-- **A text between double quotes is read back exactly if its gaps stand for themselves**,
whichever of its characters are escaped. -/
theorem quoted_spells {f : Char → List Char} (hf : ∀ c, Spells c (f c))
    (hgap : ∀ c, f c = [c] → isGap c = true → WrittenGap [c]) (cs : List Char) :
    KeptByGaps cs (cs.flatMap f) := by
  induction cs using gapInduction fun c => isGap c && f c == [c] with
  | nil => exact .nil
  | other c rest hc ih =>
    simp only [Bool.and_eq_false_imp, beq_eq_false_iff_ne] at hc
    rw [List.flatMap_cons]
    exact ih.spelled (hf c) hc
  | gap gap rest hne hmem hrest ih =>
    have hmem : ∀ c ∈ gap, isGap c = true ∧ f c = [c] := by simpa using hmem
    have hwritten : gap.flatMap f = gap := by
      rw [List.flatMap_def, List.map_congr_left fun c hc => (hmem c hc).2, ← List.flatMap_def,
        List.flatMap_singleton']
    have hgaps : WrittenGap gap := fun c hc => hgap c (hmem c hc).2 (hmem c hc).1 c (by simp)
    rw [List.flatMap_append, hwritten]
    exact ih.gap hne hgaps (head?_flatMap_spells hf hrest)

/-! ### Between single quotes -/

theorem singleText_spaces {gap : List Char} (hgap : ∀ c ∈ gap, c = ' ') (rest : List Char) :
    singleText 2 (gap ++ rest) = gap ++ singleText 2 rest := by
  induction gap with
  | nil => rfl
  | cons c more ih =>
    obtain ⟨rfl, hmore⟩ := List.forall_mem_cons.mp hgap
    simp [singleText, isBreak, ih hmore]

/-- What follows the last of some line ends is indented. -/
theorem singleText_breaks {gap : List Char} (hne : gap ≠ []) (hgap : ∀ c ∈ gap, isBreak c = true)
    {rest : List Char} (hrest : rest.head?.any isBreak = false) :
    singleText 2 (gap ++ rest) = gap ++ List.replicate 2 ' ' ++ singleText 2 rest := by
  induction gap with
  | nil => exact absurd rfl hne
  | cons c more ih =>
    obtain ⟨hc, hmore⟩ := List.forall_mem_cons.mp hgap
    cases more with
    | nil => simp [singleText, hc, hrest]
    | cons d ds =>
      have hd : isBreak d = true := hmore d (by simp)
      have htext := ih (List.cons_ne_nil _ _) hmore
      rw [List.cons_append] at htext
      simp [singleText, hc, hd] at htext ⊢
      exact htext

theorem head?_singleText {cs : List Char} (h : cs.head?.any isGap = false) :
    (singleText 2 cs).head?.any isGap = false := by
  cases cs with
  | nil => rfl
  | cons c rest =>
    have hc : isGap c = false := by simpa using h
    obtain ⟨hbreak, -⟩ := ne_of_no_gap hc
    by_cases hquote : c = '\''
    · simp [singleText, hquote, isBreak, isGap, isBlank]
    · simp [singleText, hbreak, hquote, hc]

/-- Spaces between single quotes stand as they are, line ends before the indentation of the next
line. -/
theorem quoted_singleGap {gap rest : List Char} (hne : gap ≠ []) (hgap : WrittenGap gap)
    (hnext : '\x85' ∉ gap) (hkind : (∀ c ∈ gap, c = ' ') ∨ ∀ c ∈ gap, isBreak c = true)
    (hrest : rest.head?.any isGap = false)
    (hback : Quoted true ((singleText 2 rest).map normalizeBreak) (.ok rest)) :
    Quoted true ((singleText 2 (gap ++ rest)).map normalizeBreak) (.ok (gap ++ rest)) := by
  have hsame := hgap.map_normalizeBreak hnext
  have hhead := head?_map_normalizeBreak (head?_singleText hrest)
  rcases hkind with hspaces | hbreaks
  · have hno : ∀ c ∈ gap, isBreak c = false := fun c hc => by rw [hspaces c hc]; decide
    have hlast : gap.getLast?.any isBreak = false := by
      rw [List.getLast?_eq_some_getLast hne]
      exact hno _ (List.getLast_mem hne)
    have hquoted := Quoted.gap hne hgap.isGap hhead (by rw [hlast, Bool.false_and]) hback
    rw [foldGap_of_no_break hno] at hquoted
    rw [singleText_spaces hspaces, List.map_append, hsame]
    exact hquoted
  · have hspaces : (List.replicate 2 ' ').map normalizeBreak = List.replicate 2 ' ' := by decide
    -- The indentation belongs to the gap, so the gap ends with a space and nothing behind it is
    -- a document mark.
    have hgap' : ∀ c ∈ gap ++ List.replicate 2 ' ', isGap c = true :=
      List.forall_mem_append.mpr ⟨hgap.isGap, List.all_eq_true.mp (by decide)⟩
    have hlast : (gap ++ List.replicate 2 ' ').getLast?.any isBreak = false := by
      simp [isBreak]
    have hquoted := Quoted.gap (by simp) hgap' hhead (by rw [hlast, Bool.false_and]) hback
    rw [foldGap_of_breaks hne hbreaks hgap.no_feed] at hquoted
    rw [singleText_breaks hne hbreaks (head?_of_no_gap hrest).1, List.map_append, List.map_append,
      hsame, hspaces]
    exact hquoted

/-- A gap of printable characters without line feeds. -/
theorem writtenGap_of_printable {gap : List Char} (hgap : ∀ c ∈ gap, isGap c = true)
    (hprint : ∀ c ∈ gap, isPrintable c = true) (hfeed : '\n' ∉ gap) :
    WrittenGap gap ∧ '\x85' ∉ gap := by
  have hnot : ∀ c, isPrintable c = false → c ∉ gap := by
    intro c hc hmem
    rw [hprint c hmem] at hc
    cases hc
  refine ⟨fun c hc => ?_, hnot _ (by decide)⟩
  have hc' := hgap c hc
  simp only [isGap, isBlank, Bool.or_eq_true, beq_iff_eq] at hc'
  rcases hc' with (rfl | rfl) | hbreak
  · exact .inl rfl
  · exact absurd hc (hnot _ (by decide))
  · refine .inr ⟨hbreak, ?_, ?_⟩
    · rintro rfl
      exact hfeed hc
    · rintro rfl
      exact hnot _ (by decide) hc

/-- **A text that may stand between single quotes is read back.** -/
theorem quoted_singleText {cs : List Char} (h : allowsSingle cs = true) (hfeed : '\n' ∉ cs) :
    Quoted true ((singleText 2 cs).map normalizeBreak) (.ok cs) := by
  simp only [allowsSingle, Bool.and_eq_true, List.all_eq_true, Bool.not_eq_true'] at h
  obtain ⟨⟨hprint, hafter⟩, hbefore⟩ := h
  induction cs using gapInduction isGap with
  | nil => exact .close
  | other c rest hc ih =>
    obtain ⟨hbreak, hspace, -⟩ := ne_of_no_gap hc
    rw [spaceAfterBreak_cons hbreak] at hafter
    rw [spaceBeforeBreak_cons hspace] at hbefore
    have hrest := ih (fun h => hfeed (List.mem_cons_of_mem _ h)) hbefore
      (fun d hd => hprint d (List.mem_cons_of_mem _ hd)) hafter
    by_cases hquote : c = '\''
    · subst hquote
      exact .twice rfl hrest
    · have hraw : isRaw true c = true := by simp [isRaw, hc, quoteChar, hquote]
      have htext : singleText 2 (c :: rest) = c :: singleText 2 rest := by
        simp [singleText, hbreak, hquote]
      rw [htext, List.map_cons, normalizeBreak_of_no_gap hc]
      exact .raw hraw hrest
  | gap gap rest hne hgap hrest ih =>
    obtain ⟨hbreak, hspace⟩ := head?_of_no_gap hrest
    rw [spaceAfterBreak_append hspace, Bool.or_eq_false_iff] at hafter
    rw [spaceBeforeBreak_append hbreak, Bool.or_eq_false_iff] at hbefore
    obtain ⟨hprintGap, hprintRest⟩ := List.forall_mem_append.mp hprint
    rw [List.mem_append, not_or] at hfeed
    obtain ⟨hwritten, hnext⟩ := writtenGap_of_printable hgap hprintGap hfeed.1
    have hkind := spaces_or_breaks (fun c hc => (hwritten c hc).imp_right And.left) hafter.1
      hbefore.1
    exact quoted_singleGap hne hwritten hnext hkind hrest
      (ih hfeed.2 hbefore.2 hprintRest hafter.2)

end ConfigTree.Yaml
