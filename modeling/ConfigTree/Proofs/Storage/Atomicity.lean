import ConfigTree.Proofs.Storage.Operation
import ConfigTree.Proofs.Storage.PathNames

/-! # What a write leaves behind

A write makes the directories that are missing, opens a temporary file, fills it and moves it over
the target.  Whatever step fails, nothing else changes (`writesApartFrom_writeLocked`), and if none
fails the target holds what was written.

The temporary file itself is not taken care of.  A write that fails once this file is open leaves it
there, and a write that succeeds takes away what was there before.  So a write changes nothing but
the target exactly if the temporary file was not opened or is afterwards as it was before
(`writeLocked_atomic_iff`).

All of this holds for paths from the root and from the working directory, wherever that is.  A text
that was written is read back (`readText_of_writeText`).
-/
namespace ConfigTree

variable {faults : Faults}

theorem Faults.attempt_eq_ok {α : Type} {step : WriteStep} {result : Except IoKind α} {a : α}
    (h : faults.attempt step result = .ok a) : result = .ok a := by
  unfold attempt at h
  split at h
  · cases h
  · exact h

/-- The directory that a path is in; the empty path stands for the working directory. -/
def FilePath.directory (path : String) : String :=
  (FilePath.parent? path).getD ""

/-- What a file can hold to which some content is being written. -/
def Content.Begun (content left : Content) : Prop :=
  left = .bytes .empty ∨ (∃ count, left = content.take count) ∨ left = content

namespace Disk

variable {disk other next : Disk} {along process path : String} {content : Content}
  {home place temporary : Place} {places : List Place}

/-! ### What changes -/

/-- At a place is what was there before, or a directory that was missing along a path. -/
def Spares (home : Place) (along : String) (disk other : Disk) (place : Place) : Prop :=
  other.node? place = disk.node? place ∨
    disk.node? place = none ∧ other.node? place = some .directory ∧ LeadsThrough home along place

/-- Only some places have changed, apart from directories that were missing along a path. -/
structure ChangesOnly (home : Place) (along : String) (places : List Place) (disk other : Disk) :
    Prop where
  keys : Entries.NodupKeys disk → Entries.NodupKeys other
  spares : ∀ q, q ∉ places → Spares home along disk other q

theorem Spares.trans (h : Spares home along disk other place)
    (hnext : Spares home along other next place) : Spares home along disk next place := by
  rcases hnext with hsame | ⟨hfree, hmade, hleads⟩
  · unfold Spares
    rw [hsame]
    exact h
  · rcases h with hsame | ⟨-, hdirectory, -⟩
    · exact .inr ⟨hsame ▸ hfree, hmade, hleads⟩
    · rw [hfree] at hdirectory
      cases hdirectory

theorem ChangesOnly.refl (home : Place) (along : String) (places : List Place) (disk : Disk) :
    ChangesOnly home along places disk disk :=
  ⟨id, fun _ _ => .inl rfl⟩

theorem ChangesOnly.trans (h : ChangesOnly home along places disk other)
    (hnext : ChangesOnly home along places other next) : ChangesOnly home along places disk next :=
  ⟨hnext.keys ∘ h.keys, fun q hq => (h.spares q hq).trans (hnext.spares q hq)⟩

theorem ChangesOnly.mono {more : List Place} (h : ChangesOnly home along places disk other)
    (hsub : places ⊆ more) : ChangesOnly home along more disk other :=
  ⟨h.keys, fun q hq => h.spares q fun hmem => hq (hsub hmem)⟩

theorem changesOnly_insert (home : Place) (along : String) (disk : Disk) (hplace : place ≠ [])
    (node : FileNode) : ChangesOnly home along [place] disk (Entries.insert disk place node) := by
  refine ⟨fun hkeys => hkeys.insert place node, fun q hq => .inl ?_⟩
  rw [node?_insert disk hplace, if_neg (Ne.symm (List.ne_of_not_mem_cons hq))]

/-! ### Directories on the way -/

theorem changesOnly_makeDirectory (h : disk.makeDirectory path home = .ok other) :
    ChangesOnly home path [] disk other := by
  obtain ⟨place, hplace, hleads, hfree, rfl⟩ := of_makeDirectory h
  refine ⟨fun hkeys => hkeys.insert _ _, fun q _ => ?_⟩
  unfold Spares
  rw [node?_insert disk hplace]
  split
  · next hq =>
    subst hq
    exact .inr ⟨hfree, rfl, hleads⟩
  · exact .inl rfl

/-- What lies along the parent of a path lies along the path. -/
theorem LeadsThrough.of_parent {parent : String} (h : LeadsThrough home parent place)
    (hparent : FilePath.parent? path = some parent) : LeadsThrough home path place := by
  obtain ⟨names, hnames, hplace⟩ := h
  rw [startOf_parent home hparent] at hplace
  -- The empty path and the root lead no further than to where they begin.
  have hidle : parent = "" ∨ parent = "/" → place = startOf home path := by
    rintro (rfl | rfl)
    · rw [← hplace, List.prefix_nil.mp (hnames : names <+: [])]
      rfl
    · have hroot : names <+: ["."] := hnames
      rcases List.prefix_cons_iff.mp hroot with rfl | ⟨rest, rfl, hrest⟩
      · exact hplace.symm
      · rw [← hplace, List.prefix_nil.mp hrest]
        rfl
  by_cases hparent' : parent = "" ∨ parent = "/"
  · exact ⟨[], List.nil_prefix, (hidle hparent').symm⟩
  · obtain ⟨hne, hroot⟩ := not_or.mp hparent'
    exact ⟨names, hnames.trans (namesOf_parent hparent hne hroot), hplace⟩

theorem ChangesOnly.of_parent {parent : String} (h : ChangesOnly home parent places disk other)
    (hparent : FilePath.parent? path = some parent) : ChangesOnly home path places disk other :=
  ⟨h.keys, fun q hq => (h.spares q hq).imp_right fun ⟨hfree, hmade, hleads⟩ =>
    ⟨hfree, hmade, hleads.of_parent hparent⟩⟩

/-- **The fuel does not run out**: every one that exceeds the length of the path is as good as any
other, since parents are shorter. -/
theorem createDirectories_of_lt (faults : Faults) (home : Place) {fuel more : Nat} (disk : Disk)
    {path : String} (hfuel : path.length < fuel) (hmore : path.length < more) :
    createDirectories faults home fuel disk path =
      createDirectories faults home more disk path := by
  induction fuel generalizing more path with
  | zero => exact absurd hfuel (Nat.not_lt_zero _)
  | succ fuel ih =>
    obtain ⟨more, rfl⟩ := Nat.exists_eq_succ_of_ne_zero (Nat.ne_zero_of_lt hmore)
    cases hparent : FilePath.parent? path with
    | none => simp only [createDirectories, hparent]
    | some parent =>
      have hshorter := FilePath.length_parent_lt hparent
      have hsame : createDirectories faults home fuel disk parent =
          createDirectories faults home more disk parent := ih (by omega) (by omega)
      simp only [createDirectories, hparent, hsame]

/-- **Making directories changes nothing else**, also when some of them cannot be made. -/
theorem changesOnly_createDirectories (faults : Faults) (home : Place) (fuel : Nat) (disk : Disk)
    (path : String) :
    ChangesOnly home path [] disk (createDirectories faults home fuel disk path).2 := by
  induction fuel generalizing disk path with
  | zero => exact .refl ..
  | succ fuel ih =>
    unfold createDirectories
    split
    · exact .refl ..
    · split
      · next hmake => exact changesOnly_makeDirectory (Faults.attempt_eq_ok hmake)
      · split
        · exact .refl ..
        · next parent hparent =>
          have hbefore := (ih disk parent).of_parent hparent
          split
          · next hfailed =>
            rw [hfailed] at hbefore
            exact hbefore
          · next hmade =>
            rw [hmade] at hbefore
            split
            · next hmake =>
              exact hbefore.trans (changesOnly_makeDirectory (Faults.attempt_eq_ok hmake))
            · exact hbefore
      · exact .refl ..

theorem changesOnly_makeParents (faults : Faults) (disk : Disk) (path : String) (home : Place) :
    ChangesOnly home (FilePath.directory path) [] disk (makeParents faults disk path home).2 := by
  unfold makeParents FilePath.directory
  split
  · exact .refl ..
  · next parent hparent =>
    rw [hparent]
    split
    · exact .refl ..
    · have hmade := changesOnly_createDirectories faults home (parent.length + 2) disk parent
      split
      · next hdone =>
        rw [hdone] at hmade
        exact hmade
      · next hfailed =>
        rw [hfailed] at hmade
        exact hmade

/-! ### The temporary file -/

theorem changesOnly_of_not_opened {e : WriteError}
    (h : disk.openTemporary faults process path home = (.error e, other)) :
    ChangesOnly home (FilePath.directory path) [] disk other := by
  have hmade := changesOnly_makeParents faults disk path home
  unfold openTemporary at h
  split at h
  · next hparents =>
    cases h
    rw [hparents] at hmade
    exact hmade
  · next hparents =>
    rw [hparents] at hmade
    dsimp only at h
    split at h
    · cases h
      exact hmade
    · cases h

/-- The temporary file is opened under its name, and is empty then. -/
theorem of_openTemporary
    (h : disk.openTemporary faults process path home = (.ok temporary, other)) :
    ChangesOnly home (FilePath.directory path) [temporary] disk other ∧
      other.node? temporary = some (.file (.bytes .empty)) ∧
      ∃ before t, Leads before home (FilePath.temporary process path) t ∧ temporary = t.place := by
  have hmade := changesOnly_makeParents faults disk path home
  unfold openTemporary at h
  split at h
  · cases h
  · next before hparents =>
    rw [hparents] at hmade
    dsimp only at h
    split at h
    · cases h
    · next hopen =>
      cases h
      obtain ⟨t, hleads, rfl, -, rfl⟩ := of_openFile (Faults.attempt_eq_ok hopen)
      refine ⟨(hmade.mono (List.nil_subset _)).trans
        (changesOnly_insert home _ before t.place_ne_nil _), ?_, before, t, hleads, rfl⟩
      rw [node?_insert before t.place_ne_nil, if_pos rfl]

/-- The temporary file has been filled as far as the steps went. -/
theorem of_fillTemporary {outcome : Except WriteError Unit} (hplace : place ≠ [])
    (hempty : disk.node? place = some (.file (.bytes .empty)))
    (h : disk.fillTemporary faults process place path content = (outcome, other)) :
    ChangesOnly home along [place] disk other ∧
      ∃ left, other.node? place = some (.file left) ∧ content.Begun left ∧
        (outcome = .ok () → left = content) := by
  have hholding : ∀ left,
      ChangesOnly home along [place] disk (Entries.insert disk place (.file left)) ∧
        node? (Entries.insert disk place (.file left)) place = some (.file left) := fun left =>
    ⟨changesOnly_insert home along disk hplace _, by rw [node?_insert disk hplace, if_pos rfl]⟩
  unfold fillTemporary at h
  dsimp only at h
  split at h
  · cases h
    exact ⟨.refl .., _, hempty, .inl rfl, nofun⟩
  · split at h
    · cases h
      exact ⟨(hholding _).1, _, (hholding _).2, .inr (.inl ⟨_, rfl⟩), nofun⟩
    · split at h
      · cases h
        exact ⟨(hholding _).1, _, (hholding _).2, .inr (.inr rfl), fun _ => rfl⟩
      · split at h
        · cases h
          exact ⟨(hholding _).1, _, (hholding _).2, .inr (.inr rfl), fun _ => rfl⟩
        · cases h
          exact ⟨(hholding _).1, _, (hholding _).2, .inr (.inr rfl), fun _ => rfl⟩

/-- The path of a file ends with its name. -/
theorem Leads.lastName? {t : Target} (h : disk.Leads home path t) :
    FilePath.lastName? path = some t.name := by
  obtain ⟨names, hnames, -⟩ := h.names
  obtain ⟨last, hlast⟩ := Option.isSome_iff_exists.mp
    (List.getLast?_isSome.mpr (FilePath.splitSlash_ne_nil path.toList))
  obtain ⟨front, hfront⟩ := List.getLast?_eq_some_iff.mp hlast
  have hne : last ≠ [] := by
    -- A slash at the end counts as a point behind it, which is no name of a file.
    rintro rfl
    have hpoint : (namesOf path).getLast? = some "." ∨ namesOf path = [] := by
      unfold namesOf
      dsimp only
      split
      · split
        · exact .inr rfl
        · exact .inl rfl
      · simp [hfront]
    rcases hpoint with hpoint | hnil
    · rw [hnames, List.getLast?_concat] at hpoint
      exact h.named.1 (Option.some.inj hpoint)
    · rw [hnames] at hnil
      simp at hnil
  have hname : t.name = String.ofList last := by
    have hall := namesOf_of_splitSlash hfront hne
    rw [hnames, hfront, List.map_append, List.filter_append] at hall
    have hsome : String.ofList last ≠ "" := fun he => hne (String.ofList_eq_empty_iff.mp he)
    have hends := congrArg List.getLast? hall
    simpa [hsome] using hends
  have hother : ∀ cs : List Char, t.name ≠ String.ofList cs → last ≠ cs := by
    rintro cs hcs rfl
    exact hcs hname
  rw [hname]
  exact FilePath.lastName?_of_splitSlash hfront hne (hother _ h.named.1) (hother _ h.named.2)

/-- **The temporary file is not the target.** -/
theorem place_ne_of_temporary {before : Disk} {t target : Target}
    (hprocess : '/' ∉ process.toList)
    (ht : before.Leads home (FilePath.temporary process path) t)
    (htarget : disk.Leads home path target) : t.place ≠ target.place := by
  intro hplace
  have hname : t.name = target.name :=
    List.singleton_inj.mp (List.append_inj_right' hplace rfl)
  have hlong := ht.lastName?.symm.trans (FilePath.lastName?_temporary hprocess path)
  rw [htarget.lastName?, hname] at hlong
  have hlength := congrArg String.length (Option.some.inj hlong)
  simp only [Option.getD_some, String.length_append, show ".".length = 1 from rfl,
    show ".tmp".length = 4 from rfl] at hlength
  omega

/-! ### The whole write -/

/-- How a write goes: the temporary file is not opened, or it is opened and filled but not moved,
or all is done. -/
theorem of_writeLocked {file : FilePath} {outcome : Except WriteError Unit}
    (h : disk.writeLocked faults process file content home = (outcome, other)) :
    (∃ e, outcome = .error e ∧
        disk.openTemporary faults process file.text home = (.error e, other)) ∨
      ∃ temporary opened done filled,
        disk.openTemporary faults process file.text home = (.ok temporary, opened) ∧
        fillTemporary faults process opened temporary file.text content = (done, filled) ∧
        ((∃ e, outcome = .error e ∧ other = filled) ∨
          outcome = .ok () ∧ done = .ok () ∧
            filled.rename temporary file.text home = .ok other) := by
  unfold writeLocked at h
  split at h
  · next hopen =>
    cases h
    exact .inl ⟨_, rfl, hopen⟩
  · next hopen =>
    split at h
    · next hfill =>
      cases h
      exact .inr ⟨_, _, _, _, hopen, hfill, .inl ⟨_, rfl, rfl⟩⟩
    · next hfill =>
      split at h
      · cases h
        exact .inr ⟨_, _, _, _, hopen, hfill, .inl ⟨_, rfl, rfl⟩⟩
      · next hmove =>
        cases h
        exact .inr ⟨_, _, _, _, hopen, hfill, .inr ⟨rfl, rfl, Faults.attempt_eq_ok hmove⟩⟩

/-- The write opens its temporary file at this place. -/
def OpensAt (faults : Faults) (process : String) (disk : Disk) (home : Place) (path : String)
    (temporary : Place) : Prop :=
  ∃ opened, disk.openTemporary faults process path home = (.ok temporary, opened)

/-- A write succeeds, and then the file is at its path and nothing else has changed, or fails, and
then nothing has changed.  This leaves out directories that the file needs and that were missing,
and what is at some other places. -/
def WritesApartFrom (others : Place → Prop) (disk : Disk) (home : Place) (path : String)
    (content : Content) : Except WriteError Unit × Disk → Prop
  | (.ok _, other) => other.stat path home = .ok (.file content) ∧
      ∀ q, ¬ others q → other.resolve path home ≠ .ok q →
        Spares home (FilePath.directory path) disk other q
  | (.error _, other) => ∀ q, ¬ others q → Spares home (FilePath.directory path) disk other q

/-- A write is done or not done. -/
def WritesAtomically (disk : Disk) (home : Place) (path : String) (content : Content)
    (result : Except WriteError Unit × Disk) : Prop :=
  WritesApartFrom (fun _ => False) disk home path content result

/-- **A write that succeeds leaves the file at its path**, and takes the temporary file away. -/
theorem of_writeLocked_ok {file : FilePath}
    (h : disk.writeLocked faults process file content home = (.ok (), other)) :
    ∃ temporary target, OpensAt faults process disk home file.text temporary ∧
      other.resolve file.text home = .ok target ∧ other.node? target = some (.file content) ∧
      ChangesOnly home (FilePath.directory file.text) [temporary, target] disk other ∧
      ('/' ∉ process.toList → Entries.NodupKeys disk → other.node? temporary = none) := by
  rcases of_writeLocked h with ⟨e, he, -⟩ | ⟨temporary, opened, done, filled, hopen, hfill, hend⟩
  · cases he
  · rcases hend with ⟨e, he, -⟩ | ⟨-, hdone, hmove⟩
    · cases he
    · obtain ⟨hopened, hempty, before, t, hleads, htemporary⟩ := of_openTemporary hopen
      have hplace : temporary ≠ [] := htemporary ▸ t.place_ne_nil
      obtain ⟨hfilled, left, hleft, -, hcontent⟩ := of_fillTemporary hplace hempty hfill
      rw [hcontent hdone] at hleft
      obtain ⟨target, htarget, hresolve, hother⟩ := of_rename hleft hmove
      have hbefore := hopened.trans hfilled
      have hnode :=
        node?_insert (Entries.erase filled temporary) target.place_ne_nil (.file content)
      rw [← hother] at hnode
      refine ⟨temporary, target.place, ⟨opened, hopen⟩, hresolve, by rw [hnode, if_pos rfl], ?_,
        fun hprocess hkeys => ?_⟩
      · refine (hbefore.mono (by simp)).trans ⟨fun hkeys => ?_, fun q hq => .inl ?_⟩
        · rw [hother]
          exact (hkeys.erase _).insert _ _
        · obtain ⟨hsource, hplace⟩ : q ≠ temporary ∧ q ≠ target.place := by simpa using hq
          rw [hnode, if_neg hplace.symm, node?_erase_of_ne _ hsource.symm]
      · have hne : temporary ≠ target.place :=
          htemporary ▸ place_ne_of_temporary hprocess hleads htarget
        rw [hnode, if_neg hne.symm, node?_erase_self (hbefore.keys hkeys) hplace]

/-- **A write that fails changes nothing**, or leaves its temporary file. -/
theorem of_writeLocked_error {file : FilePath} {e : WriteError}
    (h : disk.writeLocked faults process file content home = (.error e, other)) :
    (ChangesOnly home (FilePath.directory file.text) [] disk other ∧
      ∀ temporary, ¬ OpensAt faults process disk home file.text temporary) ∨
    ∃ temporary left, OpensAt faults process disk home file.text temporary ∧
      ChangesOnly home (FilePath.directory file.text) [temporary] disk other ∧
      other.node? temporary = some (.file left) ∧ content.Begun left := by
  rcases of_writeLocked h with ⟨e, -, hopen⟩ | ⟨temporary, opened, done, filled, hopen, hfill, hend⟩
  · refine .inl ⟨changesOnly_of_not_opened hopen, fun temporary ⟨opened, hopened⟩ => ?_⟩
    rw [hopen] at hopened
    cases hopened
  · rcases hend with ⟨-, -, rfl⟩ | ⟨hok, -⟩
    · obtain ⟨hopened, hempty, before, t, hleads, htemporary⟩ := of_openTemporary hopen
      have hplace : temporary ≠ [] := htemporary ▸ t.place_ne_nil
      obtain ⟨hfilled, left, hleft, hbegun, -⟩ := of_fillTemporary hplace hempty hfill
      exact .inr ⟨temporary, left, ⟨opened, hopen⟩, hopened.trans hfilled, hleft, hbegun⟩
    · cases hok

theorem OpensAt.unique {q : Place} (h : OpensAt faults process disk home path temporary)
    (hq : OpensAt faults process disk home path q) : q = temporary := by
  obtain ⟨opened, hopen⟩ := h
  obtain ⟨also, halso⟩ := hq
  rw [hopen] at halso
  cases halso
  rfl

/-- **Whatever fails, a write is done or not done apart from its temporary file.** -/
theorem writesApartFrom_writeLocked (faults : Faults) (process : String) (disk : Disk)
    (home : Place) (file : FilePath) (content : Content) :
    WritesApartFrom (OpensAt faults process disk home file.text) disk home file.text content
      (disk.writeLocked faults process file content home) := by
  generalize hresult : disk.writeLocked faults process file content home = result
  obtain ⟨⟨⟩ | ⟨⟩, other⟩ := result
  · rcases of_writeLocked_error hresult with ⟨hsame, -⟩ | ⟨temporary, left, hopens, hsame, -, -⟩
    · exact fun q _ => hsame.spares q List.not_mem_nil
    · exact fun q hq => hsame.spares q (by simpa using fun he : q = temporary => hq (he ▸ hopens))
  · obtain ⟨temporary, target, hopens, hresolve, hnode, hsame, -⟩ := of_writeLocked_ok hresult
    refine ⟨stat_of_resolve hresolve hnode, fun q hq htarget => hsame.spares q ?_⟩
    have hplace : q ≠ target := fun he => htarget (he ▸ hresolve)
    simpa using ⟨fun he : q = temporary => hq (he ▸ hopens), hplace⟩

/-- **What a write does to its temporary file**: it is gone if the write succeeds, and is left if
the write fails. -/
theorem temporary_of_writeLocked {file : FilePath} {outcome : Except WriteError Unit}
    (hkeys : Entries.NodupKeys disk) (hprocess : '/' ∉ process.toList)
    (h : disk.writeLocked faults process file content home = (outcome, other))
    (hopens : OpensAt faults process disk home file.text temporary) :
    (outcome = .ok () → other.node? temporary = none) ∧
      ∀ e, outcome = .error e →
        ∃ left, other.node? temporary = some (.file left) ∧ content.Begun left := by
  constructor
  · rintro rfl
    obtain ⟨q, target, hq, -, -, -, hgone⟩ := of_writeLocked_ok h
    rw [hq.unique hopens]
    exact hgone hprocess hkeys
  · rintro e rfl
    rcases of_writeLocked_error h with ⟨-, hnone⟩ | ⟨q, left, hq, -, hleft, hbegun⟩
    · exact absurd hopens (hnone temporary)
    · rw [hq.unique hopens]
      exact ⟨left, hleft, hbegun⟩

/-- A write is done or not done if its temporary file is afterwards as it was before. -/
theorem writesAtomically_iff {file : FilePath} {outcome : Except WriteError Unit}
    (hkeys : Entries.NodupKeys disk) (hprocess : '/' ∉ process.toList)
    (h : disk.writeLocked faults process file content home = (outcome, other)) :
    WritesAtomically disk home file.text content (outcome, other) ↔
      ∀ temporary, OpensAt faults process disk home file.text temporary →
        other.node? temporary = disk.node? temporary := by
  have hapart := writesApartFrom_writeLocked faults process disk home file content
  rw [h] at hapart
  cases outcome with
  | error e =>
    constructor
    · intro hatomic q hopens
      obtain ⟨left, hleft, -⟩ := (temporary_of_writeLocked hkeys hprocess h hopens).2 e rfl
      refine (hatomic q not_false).resolve_right fun ⟨_, hmade, _⟩ => ?_
      rw [hleft] at hmade
      cases hmade
    · intro hsame q _
      by_cases hq : OpensAt faults process disk home file.text q
      · exact .inl (hsame q hq)
      · exact hapart q hq
  | ok done =>
    constructor
    · intro hatomic q hopens
      have hgone := (temporary_of_writeLocked hkeys hprocess h hopens).1 rfl
      refine (hatomic.2 q not_false fun hresolve => ?_).resolve_right fun ⟨_, hmade, _⟩ => ?_
      · have hstat := hatomic.1
        unfold stat at hstat
        rw [hresolve] at hstat
        simp [bind, Except.bind, hgone] at hstat
      · rw [hgone] at hmade
        cases hmade
    · refine fun hsame => ⟨hapart.1, fun q _ htarget => ?_⟩
      by_cases hq : OpensAt faults process disk home file.text q
      · exact .inl (hsame q hq)
      · exact hapart.2 q hq htarget

/-- **When a write is done or not done**, for every path and every working directory: exactly if
the temporary file was not opened, or is as it was before.  Since it is gone after a write that
succeeds, none may have been there; since it is left by one that fails, it has to have been there
and to have held the same.  Apart from the temporary file every write is done or not done. -/
theorem writeLocked_atomic_iff (faults : Faults) (home : Place) (file : FilePath)
    (content : Content) (hkeys : Entries.NodupKeys disk) (hprocess : '/' ∉ process.toList) :
    let result := disk.writeLocked faults process file content home
    (WritesAtomically disk home file.text content result ↔
      ∀ temporary, OpensAt faults process disk home file.text temporary →
        result.2.node? temporary = disk.node? temporary) ∧
    WritesApartFrom (OpensAt faults process disk home file.text) disk home file.text content
      result ∧
    ∀ temporary, OpensAt faults process disk home file.text temporary →
      (result.1 = .ok () → result.2.node? temporary = none) ∧
      ∀ e, result.1 = .error e →
        ∃ left, result.2.node? temporary = some (.file left) ∧ content.Begun left := by
  have hapart := writesApartFrom_writeLocked faults process disk home file content
  generalize hresult : disk.writeLocked faults process file content home = result at hapart
  obtain ⟨outcome, other⟩ := result
  exact ⟨writesAtomically_iff hkeys hprocess hresult, hapart,
    fun _ => temporary_of_writeLocked hkeys hprocess hresult⟩

/-- A disk with two directories, one in the other. -/
def nestedHome : Disk := [(["home"], .directory), (["home", "user"], .directory)]

/-- A file is written into two directories that are missing, along a path from the root, and found
along a path that goes upwards from the working directory. -/
theorem writeLocked_atomic_iff_nested :
    let home := ["home", "user"]
    let result := writeLocked Faults.none "7" nestedHome ⟨"/home/a/b/c"⟩ (.zeros 1) home
    WritesAtomically nestedHome home "/home/a/b/c" (.zeros 1) result ∧ result.1 = .ok () ∧
      result.2.isFile "../a/b/c" home = true := by
  intro home result
  have hok : result.1 = .ok () := by decide +kernel
  have hfound : result.2.isFile "../a/b/c" home = true := by decide +kernel
  have hplace : (openTemporary Faults.none "7" nestedHome "/home/a/b/c" home).1 =
      .ok ["home", "a", "b", ".c.7.tmp"] := by decide +kernel
  have hkeys : Entries.NodupKeys nestedHome := by
    show (nestedHome.map (·.1)).Nodup
    decide
  obtain ⟨hatomic, -, htemporary⟩ :=
    writeLocked_atomic_iff Faults.none home ⟨"/home/a/b/c"⟩ (.zeros 1) hkeys
      (show '/' ∉ "7".toList by decide)
  refine ⟨hatomic.mpr fun temporary hopens => ?_, hok, hfound⟩
  rw [(htemporary temporary hopens).1 hok]
  obtain ⟨opened, hopened⟩ := hopens
  rw [hopened] at hplace
  cases hplace
  rfl

/-- A disk with a directory in the working directory. -/
def occupiedHome : Disk := [(["home"], .directory), (["home", "d"], .directory)]

/-- A directory is not written over, but the temporary file is left beside it. -/
theorem not_writesAtomically_directory :
    ¬ WritesAtomically occupiedHome ["home"] "d" (.zeros 1)
      (writeLocked Faults.none "7" occupiedHome ⟨"d"⟩ (.zeros 1) ["home"]) := by
  have hfailed : (writeLocked Faults.none "7" occupiedHome ⟨"d"⟩ (.zeros 1) ["home"]).1 =
      .error (.file (.io "d" .isADirectory)) := by decide +kernel
  have hleft : ((writeLocked Faults.none "7" occupiedHome ⟨"d"⟩ (.zeros 1) ["home"]).2.node?
      ["home", ".d.7.tmp"]).isSome := by decide +kernel
  generalize writeLocked Faults.none "7" occupiedHome ⟨"d"⟩ (.zeros 1) ["home"] = result
    at hfailed hleft
  obtain ⟨outcome, other⟩ := result
  subst hfailed
  intro hatomic
  rcases hatomic ["home", ".d.7.tmp"] not_false with hsame | ⟨-, -, names, hnames, hplace⟩
  · rw [hsame] at hleft
    cases hleft
  · rw [List.prefix_nil.mp (hnames : names <+: [])] at hplace
    cases hplace

/-! ### Reading what was written -/

/-- **A write that succeeds leaves the file at its path.** -/
theorem stat_of_writeAtomic {file : FilePath}
    (h : disk.writeAtomic faults process file content home = (.ok (), other)) :
    other.stat file.text home = .ok (.file content) := by
  unfold writeAtomic at h
  have hall := writesApartFrom_writeLocked faults process disk home file content
  generalize disk.writeLocked faults process file content home = result at h hall
  obtain ⟨⟨e⟩ | ⟨⟩, written⟩ := result
  · cases h
  · cases h
    exact hall.1

/-- **A text that was written is read back**, unless it is too large to be read. -/
theorem readText_of_writeText {file : FilePath} {text : String}
    (h : disk.writeText process file text home = (.ok (), other))
    (hsize : text.utf8ByteSize ≤ maxFileSize) : other.readText file.text home = .ok text := by
  have hcontent : Content.text? (.bytes text.toUTF8) = some text := dif_pos text.isValidUTF8
  have hlen : ¬ maxFileSize < Content.size (.bytes text.toUTF8) := Nat.not_lt.mpr hsize
  unfold readText
  rw [stat_of_writeAtomic h]
  simp only [if_neg hlen, hcontent]

end Disk

end ConfigTree
