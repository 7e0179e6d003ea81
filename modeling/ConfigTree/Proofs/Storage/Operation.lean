import ConfigTree.Proofs.Outcome
import ConfigTree.Storage.File

/-! # What one operation does to a disk

A path that is about to be made is resolved up to its last name, and on the way there are
directories only (`Leads`).  Making a directory, opening a file and moving one each change what is
at one or two places, and say which (`of_makeDirectory`, `of_openFile`, `of_rename`).
-/
namespace ConfigTree

namespace Disk

variable {disk other : Disk} {home place parent : Place}

/-! ### Places -/

@[simp] theorem node?_nil (disk : Disk) : disk.node? [] = some .directory := rfl

theorem node?_of_ne_nil (disk : Disk) (h : place ≠ []) :
    disk.node? place = Entries.get? disk place := by
  simp [node?, h]

theorem node?_insert (disk : Disk) (h : place ≠ []) (node : FileNode) (q : Place) :
    node? (Entries.insert disk place node) q = if place = q then some node else disk.node? q := by
  by_cases hq : q = []
  · rw [hq, node?_nil, node?_nil, if_neg h]
  · rw [node?_of_ne_nil _ hq, node?_of_ne_nil _ hq, Entries.get?_insert]

theorem node?_erase_of_ne (disk : Disk) {q : Place} (h : place ≠ q) :
    node? (Entries.erase disk place) q = disk.node? q := by
  by_cases hq : q = []
  · rw [hq, node?_nil, node?_nil]
  · rw [node?_of_ne_nil _ hq, node?_of_ne_nil _ hq, Entries.get?_erase_of_ne h]

theorem node?_erase_self (hkeys : Entries.NodupKeys disk) (h : place ≠ []) :
    node? (Entries.erase disk place) place = none := by
  rw [node?_of_ne_nil _ h, Entries.get?_erase hkeys, if_pos rfl]

theorem Target.place_ne_nil (t : Target) : t.place ≠ [] := by simp [Target.place]

/-! ### Ways -/

/-- What is a directory on the first disk is one on the second. -/
def KeepsDirectories (disk other : Disk) : Prop :=
  ∀ place, disk.node? place = some .directory → other.node? place = some .directory

/-- Where a name leads from a place. -/
def step (place : Place) (name : String) : Place :=
  if name = "." then place else if name = ".." then place.dropLast else place ++ [name]

theorem walk_cons {name : String} {rest : List String} (hsize : name.utf8ByteSize ≤ maxNameSize)
    (hstep : disk.node? (step place name) = some .directory) :
    disk.walk place (name :: rest) = disk.walk (step place name) rest := by
  rw [walk, if_neg (Nat.not_lt.mpr hsize)]
  unfold step at hstep ⊢
  simp only [hstep]

/-- On the way to a directory there are directories only. -/
theorem of_walk_cons {name : String} {rest : List String}
    (hwalk : disk.walk place (name :: rest) = .ok parent)
    (hparent : disk.node? parent = some .directory) :
    name.utf8ByteSize ≤ maxNameSize ∧ disk.node? (step place name) = some .directory ∧
      disk.walk (step place name) rest = .ok parent := by
  unfold walk at hwalk
  split at hwalk
  · cases hwalk
  · next hsize =>
    refine ⟨Nat.le_of_not_lt hsize, ?_⟩
    dsimp only at hwalk
    split at hwalk
    · cases hwalk
    · next hfile =>
      split at hwalk
      · cases hwalk
        rw [hfile] at hparent
        cases hparent
      · cases hwalk
    · next hdirectory => exact ⟨hdirectory, hwalk⟩

/-- The way to a directory is the same on every disk that keeps the directories. -/
theorem walk_of_keeps (hkeeps : disk.KeepsDirectories other) {names : List String}
    (hwalk : disk.walk place names = .ok parent)
    (hparent : disk.node? parent = some .directory) : other.walk place names = .ok parent := by
  induction names generalizing place with
  | nil => exact hwalk
  | cons name rest ih =>
    obtain ⟨hsize, hstep, hrest⟩ := of_walk_cons hwalk hparent
    rw [walk_cons hsize (hkeeps _ hstep), ih hrest]

/-- One more name is looked up in the directory to which the names before it lead. -/
theorem walk_concat {names : List String} (hwalk : disk.walk place names = .ok parent)
    (hparent : disk.node? parent = some .directory) (name : String) :
    disk.walk place (names ++ [name]) = disk.walk parent [name] := by
  induction names generalizing place with
  | nil =>
    cases hwalk
    rfl
  | cons first rest ih =>
    obtain ⟨hsize, hstep, hrest⟩ := of_walk_cons hwalk hparent
    rw [List.cons_append, walk_cons hsize hstep, ih hrest]

/-- A path that is not refused at once is not empty and begins in a directory. -/
theorem of_checkPath {path : String} (h : disk.checkPath home path = .ok ()) :
    '\x00' ∉ path.toList ∧ path ≠ "" ∧
      disk.node? (startOf home path) = some .directory := by
  unfold checkPath at h
  split at h
  · cases h
  · next hzero =>
    split at h
    · cases h
    · next hne =>
      split at h
      · next hstart => exact ⟨by simpa using hzero, hne, hstart⟩
      · cases h

theorem checkPath_of_keeps (hkeeps : disk.KeepsDirectories other) {path : String}
    (h : disk.checkPath home path = .ok ()) : other.checkPath home path = .ok () := by
  obtain ⟨hzero, hne, hstart⟩ := of_checkPath h
  unfold checkPath
  simp [hzero, hne, hkeeps _ hstart]

theorem namesOf_ne_nil {path : String} (hne : path ≠ "") : namesOf path ≠ [] := by
  unfold namesOf
  simp only [hne, if_false]
  split
  · simp
  · next hnamed =>
    split
    · simp
    · simpa using hnamed

/-- The names along which a walk went lead to where it ended. -/
theorem foldl_step_of_walk {names : List String} (hwalk : disk.walk place names = .ok parent) :
    names.foldl step place = parent := by
  induction names generalizing place with
  | nil => exact Except.ok.inj hwalk
  | cons name rest ih =>
    unfold walk at hwalk
    split at hwalk
    · cases hwalk
    · dsimp only at hwalk
      split at hwalk
      · cases hwalk
      · split at hwalk
        · next hrest =>
          rw [List.isEmpty_iff.mp hrest]
          exact Except.ok.inj hwalk
        · cases hwalk
      · exact ih hwalk

/-! ### Targets -/

/-- What resolving all but the last name of a path has found. -/
theorem of_target {path : String} {t : Target} (h : disk.target path home = .ok t) :
    disk.checkPath home path = .ok () ∧ disk.node? t.parent = some .directory ∧
      t.name.utf8ByteSize ≤ maxNameSize ∧
      ∃ names, disk.walk (startOf home path) names = .ok t.parent ∧
        names ++ [t.name] <+: namesOf path ∧
        (t.wantsDirectory = false → names ++ [t.name] = namesOf path) := by
  obtain ⟨⟨⟩, hchecked, h⟩ := bind_eq_ok_iff.mp h
  dsimp only at h
  generalize haim : (if 1 < (namesOf path).length && (namesOf path).getLast? == some "." &&
      path.toList.getLast? == some '/' then ((namesOf path).dropLast, true)
    else (namesOf path, false)) = aim at h
  obtain ⟨names, wantsDirectory⟩ := aim
  have hnames : names ≠ [] ∧ names <+: namesOf path ∧
      (wantsDirectory = false → names = namesOf path) := by
    split at haim
    · next hslash =>
      cases haim
      have hlength : 1 < (namesOf path).length := by simp_all
      refine ⟨List.ne_nil_of_length_pos ?_, List.dropLast_prefix _, nofun⟩
      rw [List.length_dropLast]
      omega
    · cases haim
      exact ⟨namesOf_ne_nil (of_checkPath hchecked).2.1, List.prefix_refl _, fun _ => rfl⟩
  obtain ⟨parent, hwalk, h⟩ := bind_eq_ok_iff.mp h
  dsimp only at h
  split at h
  · next hdirectory =>
    split at h
    · cases h
    · next hsize =>
      cases h
      obtain ⟨name, hname⟩ := Option.isSome_iff_exists.mp (List.getLast?_isSome.mpr hnames.1)
      have hall : names.dropLast ++ [names.getLast?.getD "."] = names := by
        rw [hname]
        exact List.dropLast_append_getLast? name hname
      refine ⟨hchecked, hdirectory, Nat.le_of_not_lt hsize, names.dropLast, hwalk, ?_⟩
      rw [hall]
      exact hnames.2
  · cases h
  · cases h

/-- The place at which a file can be written: a directory, and a name in it. -/
structure Leads (disk : Disk) (home : Place) (path : String) (t : Target) : Prop where
  checked : disk.checkPath home path = .ok ()
  directory : disk.node? t.parent = some .directory
  size : t.name.utf8ByteSize ≤ maxNameSize
  names : ∃ names, namesOf path = names ++ [t.name] ∧
    disk.walk (startOf home path) names = .ok t.parent
  named : t.name ≠ "." ∧ t.name ≠ ".."

theorem leads_of_target {path : String} {t : Target} (h : disk.target path home = .ok t)
    (hfixed : t.isFixed = false) (hwants : t.wantsDirectory = false) : disk.Leads home path t := by
  obtain ⟨hchecked, hdirectory, hsize, names, hwalk, -, hnames⟩ := of_target h
  exact ⟨hchecked, hdirectory, hsize, ⟨names, (hnames hwants).symm, hwalk⟩,
    by simpa [Target.isFixed] using hfixed⟩

/-- The path of a target leads to its place, on any disk that has the directories and a file
there. -/
theorem Leads.resolve_eq {path : String} {t : Target} {content : Content}
    (h : disk.Leads home path t) (hkeeps : disk.KeepsDirectories other)
    (hfile : other.node? t.place = some (.file content)) :
    other.resolve path home = .ok t.place := by
  obtain ⟨names, hnames, hwalk⟩ := h.names
  have hnext : other.walk t.parent [t.name] = .ok t.place := by
    rw [walk, if_neg (Nat.not_lt.mpr h.size)]
    simp only [if_neg h.named.1, if_neg h.named.2]
    rw [show t.parent ++ [t.name] = t.place from rfl, hfile]
    rfl
  rw [resolve, checkPath_of_keeps hkeeps h.checked, hnames]
  show other.walk (startOf home path) (names ++ [t.name]) = _
  rw [walk_concat (walk_of_keeps hkeeps hwalk h.directory) (hkeeps _ h.directory), hnext]

/-- The file at the place to which a path leads is what is found there. -/
theorem stat_of_resolve {path : String} {node : FileNode}
    (h : disk.resolve path home = .ok place) (hnode : disk.node? place = some node) :
    disk.stat path home = .ok node := by
  unfold stat
  rw [h]
  simp only [bind, Except.bind, hnode]
  rfl

/-! ### Operations -/

/-- The place is one to which the path, or a part of it from its beginning, leads. -/
def LeadsThrough (home : Place) (path : String) (place : Place) : Prop :=
  ∃ names, names <+: namesOf path ∧ names.foldl step (startOf home path) = place

/-- A directory is made where nothing was. -/
theorem of_makeDirectory {path : String} (h : disk.makeDirectory path home = .ok other) :
    ∃ place, place ≠ [] ∧ LeadsThrough home path place ∧ disk.node? place = none ∧
      other = Entries.insert disk place .directory := by
  obtain ⟨t, htarget, h⟩ := bind_eq_ok_iff.mp h
  obtain ⟨-, -, -, names, hwalk, hfirst, -⟩ := of_target htarget
  dsimp only at h
  split at h
  · cases h
  · next hfree =>
    cases h
    obtain ⟨hfixed, hnode⟩ : t.isFixed = false ∧ disk.node? t.place = none := by
      simpa using hfree
    have hnamed : t.name ≠ "." ∧ t.name ≠ ".." := by simpa [Target.isFixed] using hfixed
    refine ⟨t.place, t.place_ne_nil, ⟨_, hfirst, ?_⟩, hnode, rfl⟩
    rw [List.foldl_append, foldl_step_of_walk hwalk]
    simp [step, hnamed, Target.place]

/-- A file is opened where none is yet, or where one is. -/
theorem of_openFile {path : String} (h : disk.openFile path home = .ok (place, other)) :
    ∃ t, disk.Leads home path t ∧ place = t.place ∧ disk.node? place ≠ some .directory ∧
      other = Entries.insert disk place (.file (.bytes .empty)) := by
  obtain ⟨t, htarget, h⟩ := bind_eq_ok_iff.mp h
  dsimp only at h
  split at h
  · cases h
  · next hfile =>
    obtain ⟨hfixed, hwants⟩ : t.isFixed = false ∧ t.wantsDirectory = false := by simpa using hfile
    split at h
    · cases h
    · next hnode =>
      cases h
      exact ⟨t, leads_of_target htarget hfixed hwants, rfl, hnode, rfl⟩

/-- A file at the place of a target is found at its path once it has been moved there. -/
theorem Leads.resolve_of_move {path : String} {t : Target} (h : disk.Leads home path t)
    {content : Content} (hfile : disk.node? place = some (.file content))
    (hfree : disk.node? t.place ≠ some .directory) :
    resolve (Entries.insert (Entries.erase disk place) t.place (.file content)) path home =
      .ok t.place := by
  have hnew := node?_insert (Entries.erase disk place) t.place_ne_nil (.file content)
  refine h.resolve_eq (fun q hq => ?_) (by rw [hnew, if_pos rfl])
  -- Neither the place that is emptied nor the one that is filled is a directory.
  have hsource : place ≠ q := by
    rintro rfl
    rw [hfile] at hq
    cases hq
  have htarget : t.place ≠ q := by
    rintro rfl
    exact hfree hq
  rw [hnew, if_neg htarget, node?_erase_of_ne _ hsource, hq]

/-- A file is moved to where none is yet, or where one is, and is found there. -/
theorem of_rename {path : String} {content : Content}
    (hfile : disk.node? place = some (.file content))
    (h : disk.rename place path home = .ok other) :
    ∃ t, disk.Leads home path t ∧ other.resolve path home = .ok t.place ∧
      other = Entries.insert (Entries.erase disk place) t.place (.file content) := by
  obtain ⟨t, htarget, h⟩ := bind_eq_ok_iff.mp h
  dsimp only at h
  split at h
  · cases h
  · next hfixed =>
    split at h
    · cases h
    · next hwants =>
      split at h
      · cases h
      · next node hnode hdirectory =>
        cases h
        rw [hfile] at hnode
        cases hnode
        have hleads := leads_of_target htarget (by simpa using hfixed) (by simpa using hwants)
        exact ⟨t, hleads, hleads.resolve_of_move hfile hdirectory, rfl⟩
      · cases h

end Disk

end ConfigTree
