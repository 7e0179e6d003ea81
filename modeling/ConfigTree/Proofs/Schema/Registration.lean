import Mathlib.Data.List.Induction
import ConfigTree.Proofs.Schema.Agreement
import ConfigTree.Proofs.Tree.Validity

/-! # Registering one record after the other

What a registry says of a name is what the last registrations of this name have made it: the record
is the one that was registered last, and for each family the one that was registered last in the
family (`reflects_ofRegistrations`).

So where a name belongs to one record only, it does not matter in which order and how often records
are registered (`ofRegistrations_rearranged`); all that is left of the order is how an entry lists
its families.  Where two records have one name, the record of the entry and the one that is made for
a family can be different ones, and then the fields of the first are given to the second
(`consistent_ofRegistrations_iff`).

A registration is its namespace or family and its record.  How the record is turned into a value of
the family, which is an argument of its own, is taken to be the inclusion.
-/
namespace ConfigTree

/-- One registration. -/
inductive Registration where
  /-- A record is registered in a namespace. -/
  | record (home : Namespace) (type : RecordType)
  /-- A record is registered as a member of a family. -/
  | variant (family : Family) (type : RecordType)
deriving DecidableEq, Repr

namespace Registration

/-- The record that is registered. -/
def type : Registration → RecordType
  | record _ type => type
  | variant _ type => type

/-- Where the record is registered. -/
def home : Registration → Namespace
  | record home _ => home
  | variant family _ => family.home

/-- What the record is registered under. -/
def key (call : Registration) : Namespace × String :=
  (call.home, call.type.name)

/-- Is the record registered as a member of this family? -/
def joins (family : Family) : Registration → Bool
  | record _ _ => false
  | variant other _ => other == family

/-- The families of a name, each with the record that is made for it, after the registration. -/
def enroll (members : Entries Family RecordType) : Registration → Entries Family RecordType
  | record _ _ => members
  | variant family type => Entries.erase members family ++ [(family, type)]

variable {call : Registration} {members : Entries Family RecordType}

/-- The last entry of a family is the one that was added. -/
theorem enroll_variant (h : Entries.NodupKeys members) (family : Family) (type : RecordType) :
    (variant family type).enroll members =
      Entries.insert (Entries.erase members family) family type := by
  refine (Entries.insert_eq_append ?_ type).symm
  rw [← Entries.get?_eq_none_iff, Entries.get?_erase h, if_pos rfl]

theorem nodupKeys_enroll (call : Registration) (h : Entries.NodupKeys members) :
    Entries.NodupKeys (call.enroll members) := by
  cases call with
  | record home type => exact h
  | variant family type =>
    rw [enroll_variant h]
    exact (h.erase family).insert family type

theorem get?_enroll (call : Registration) (h : Entries.NodupKeys members) (family : Family) :
    Entries.get? (call.enroll members) family =
      if call.joins family then some call.type else Entries.get? members family := by
  cases call with
  | record home type => rfl
  | variant other type =>
    rw [enroll_variant h, Entries.get?_insert, Entries.get?_erase h]
    by_cases hother : other = family <;> simp [joins, hother, Registration.type]

end Registration

namespace Registry

/-- Carries out a registration. -/
def register (registry : Registry) : Registration → Registry
  | .record home type => registry.registerRecord home type
  | .variant family type => registry.registerVariant family type

/-- The registry after some registrations. -/
def ofRegistrations (calls : List Registration) : Registry :=
  calls.foldl register []

theorem register_eq (registry : Registry) (call : Registration) :
    registry.register call = Entries.insert registry call.key
      { registry.entryOf call.home call.type with
        record := call.type
        members := call.enroll (registry.entryOf call.home call.type).members } := by
  cases call <;> rfl

theorem ofRegistrations_concat (calls : List Registration) (call : Registration) :
    ofRegistrations (calls ++ [call]) = (ofRegistrations calls).register call := by
  rw [ofRegistrations, List.foldl_append]
  rfl

end Registry

theorem findRev?_concat {α : Type} (p : α → Bool) (calls : List α) (call : α) :
    (calls ++ [call]).findRev? p = if p call then some call else calls.findRev? p := by
  rw [List.findRev?_eq_find?_reverse, List.findRev?_eq_find?_reverse, List.reverse_concat,
    List.find?_cons]
  cases p call <;> rfl

/-- An entry shows the last registrations of its name. -/
structure RegistryEntry.Reflects (entry : RegistryEntry) (calls : List Registration)
    (key : Namespace × String) : Prop where
  name : entry.name = key.2
  keys : Entries.NodupKeys entry.members
  record : (calls.findRev? (·.key == key)).map Registration.type = some entry.record
  made : ∀ family, entry.made? family =
    (calls.findRev? fun call => call.key == key && call.joins family).map Registration.type

namespace Registry

variable {calls others : List Registration} {key : Namespace × String}

theorem nodupKeys_ofRegistrations (calls : List Registration) :
    Entries.NodupKeys (ofRegistrations calls) := by
  induction calls using List.reverseRecOn with
  | nil => exact List.nodup_nil
  | append_singleton calls call ih =>
    rw [ofRegistrations_concat, register_eq]
    exact ih.insert _ _

theorem mem_keys_ofRegistrations :
    key ∈ Entries.keys (ofRegistrations calls) ↔ ∃ call ∈ calls, call.key = key := by
  induction calls using List.reverseRecOn with
  | nil => simp [ofRegistrations, Entries.keys]
  | append_singleton calls call ih =>
    rw [ofRegistrations_concat, register_eq, Entries.mem_keys_insert, ih]
    simp [or_and_right, exists_or, eq_comm]

/-- What an entry shows of the families of its name, if the registry shows as much of every name. -/
theorem entryOf_ofRegistrations
    (h : ∀ key entry, Entries.get? (ofRegistrations calls) key = some entry →
      entry.Reflects calls key) (call : Registration) :
    let entry := (ofRegistrations calls).entryOf call.home call.type
    entry.name = call.key.2 ∧ Entries.NodupKeys entry.members ∧
      ∀ family, entry.made? family =
        (calls.findRev? fun other => other.key == call.key && other.joins family).map
          Registration.type := by
  intro entry
  have hdefault : entry = (Entries.get? (ofRegistrations calls) call.key).getD
    ⟨call.type.name, call.type, []⟩ := rfl
  rw [hdefault]
  cases hentry : Entries.get? (ofRegistrations calls) call.key with
  | some entry =>
    obtain ⟨hname, hkeys, -, hmade⟩ := h _ _ hentry
    exact ⟨hname, hkeys, hmade⟩
  | none =>
    refine ⟨rfl, List.nodup_nil, fun family => ?_⟩
    have hunknown : ∀ other ∈ calls, other.key ≠ call.key := by
      rw [Entries.get?_eq_none_iff, mem_keys_ofRegistrations] at hentry
      exact fun other hother he => hentry ⟨other, hother, he⟩
    have hnone :
        calls.findRev? (fun other => other.key == call.key && other.joins family) = none := by
      rw [List.findRev?_eq_find?_reverse, List.find?_eq_none]
      intro other hother
      simp [hunknown other (List.mem_reverse.mp hother)]
    rw [hnone]
    rfl

/-- **What an entry shows.** -/
theorem reflects_ofRegistrations {entry : RegistryEntry}
    (h : Entries.get? (ofRegistrations calls) key = some entry) : entry.Reflects calls key := by
  induction calls using List.reverseRecOn generalizing key entry with
  | nil => cases h
  | append_singleton calls call ih =>
    rw [ofRegistrations_concat, register_eq, Entries.get?_insert] at h
    by_cases hkey : call.key = key
    · subst hkey
      rw [if_pos rfl] at h
      cases h
      obtain ⟨hname, hkeys, hmade⟩ := entryOf_ofRegistrations (fun _ _ => ih) call
      refine ⟨hname, call.nodupKeys_enroll hkeys, ?_, fun family => ?_⟩
      · rw [findRev?_concat, if_pos (beq_self_eq_true _)]
        rfl
      · rw [findRev?_concat, beq_self_eq_true, Bool.true_and]
        refine (call.get?_enroll hkeys family).trans ?_
        split
        · rfl
        · exact hmade family
    · rw [if_neg hkey] at h
      obtain ⟨hname, hkeys, hrecord, hmade⟩ := ih h
      have hother : (call.key == key) = false := beq_eq_false_iff_ne.mpr hkey
      refine ⟨hname, hkeys, ?_, fun family => ?_⟩
      · rw [findRev?_concat, hother]
        exact hrecord
      · rw [findRev?_concat, hother]
        exact hmade family

end Registry

/-! ### Entries that differ in the order of their families -/

/-- Two entries that list their families in different orders, and differ in nothing else. -/
structure RegistryEntry.Same (entry other : RegistryEntry) : Prop where
  name : entry.name = other.name
  record : entry.record = other.record
  made : ∀ family, entry.made? family = other.made? family
  members : entry.members.Perm other.members

/-- Names that lead to nothing in both registries, or to two such entries. -/
def Registry.Same (registry other : Registry) : Prop :=
  ∀ home name, Option.Rel RegistryEntry.Same (registry.lookup? home name) (other.lookup? home name)

/-- Lookups that fail in the same way, or find two such entries. -/
inductive Registry.SameResult :
    Except Schema.Cause RegistryEntry → Except Schema.Cause RegistryEntry → Prop where
  | error (cause : Schema.Cause) : SameResult (.error cause) (.error cause)
  | ok {entry other : RegistryEntry} : entry.Same other → SameResult (.ok entry) (.ok other)

theorem Registry.Same.resolve {registry other : Registry} (h : registry.Same other)
    (home : Namespace) (name : String) :
    SameResult (registry.resolve home name) (other.resolve home name) := by
  have hlookup := h home name
  unfold Registry.resolve
  generalize registry.lookup? home name = found at hlookup
  generalize other.lookup? home name = also at hlookup
  cases hlookup with
  | none => exact .error _
  | some hsame => exact .ok hsame

namespace Catalog

open Schema

variable {definition : RecordType → RecordDefinition} {registry other : Registry}
  {coercion : IntegerCoercion}

theorem makeMember_same {entry found : RegistryEntry} (h : entry.Same found) (family : Family)
    (entries : Entries String Reading) (path : Path) :
    makeMember ⟨definition, registry⟩ entry family entries path =
      makeMember ⟨definition, other⟩ found family entries path := by
  unfold makeMember
  rw [h.made, h.name, h.record]
  rfl

section Same

variable (h : registry.Same other)
include h

theorem makeVariant_same (family : Family) (raw : Entries String Tree)
    (entries : Entries String Reading) (path : Path) :
    makeVariant ⟨definition, registry⟩ family raw entries path =
      makeVariant ⟨definition, other⟩ family raw entries path := by
  unfold makeVariant
  split
  · next name _ =>
    dsimp only
    have hresolve := h.resolve family.home name
    generalize registry.resolve family.home name = found at hresolve
    generalize other.resolve family.home name = also at hresolve
    cases hresolve with
    | error cause => rfl
    | ok hsame => exact makeMember_same hsame ..
  · rfl
  · rfl

/-- What a node is, and what the entries of a mapping are. -/
theorem materializeAt_same (tree : Tree) :
    materializeAt ⟨definition, registry⟩ coercion tree =
        materializeAt ⟨definition, other⟩ coercion tree ∧
      ∀ entries, tree = .mapping entries →
        readings ⟨definition, registry⟩ coercion entries =
          readings ⟨definition, other⟩ coercion entries := by
  induction tree using Tree.induction with
  | scalar text =>
    refine ⟨?_, by rintro _ ⟨⟩⟩
    funext declared path
    rw [materializeAt, materializeAt]
  | sequence items ih =>
    refine ⟨?_, by rintro _ ⟨⟩⟩
    have hmembers : ∀ family path index,
        members ⟨definition, registry⟩ coercion family path index items =
          members ⟨definition, other⟩ coercion family path index items := by
      intro family path
      induction items with
      | nil => exact fun _ => by rw [members, members]
      | cons item rest hrest =>
        obtain ⟨hitem, hall⟩ := List.forall_mem_cons.mp ih
        intro index
        cases item with
        | scalar text => rfl
        | sequence inner => rfl
        | mapping entries =>
          rw [members, members, hitem.2 entries rfl, makeVariant_same h, hrest hall]
    funext declared path
    rw [materializeAt, materializeAt]
    split
    · rw [hmembers]
    · rfl
  | mapping entries ih =>
    have hreadings : readings ⟨definition, registry⟩ coercion entries =
        readings ⟨definition, other⟩ coercion entries := by
      rw [readings_eq_mapValues, readings_eq_mapValues]
      exact List.map_congr_left fun entry hentry => by rw [(ih entry hentry).1]
    refine ⟨?_, fun _ he => Tree.mapping.inj he ▸ hreadings⟩
    funext declared path
    cases declared with
    | record type =>
      rw [materializeAt, materializeAt, hreadings]
      rfl
    | variant family => rw [materializeAt, materializeAt, hreadings, makeVariant_same h]
    | _ => rfl

theorem materialize_same (raw : Tree) (declared : DeclaredType) :
    materialize ⟨definition, registry⟩ coercion raw declared =
      materialize ⟨definition, other⟩ coercion raw declared :=
  congrFun (congrFun (materializeAt_same h raw).1 declared) []

theorem materializeNamed_same (declared : DeclaredType) (home : Namespace) (name : String)
    (inner : List (String × Tree)) :
    materializeNamed ⟨definition, registry⟩ coercion declared home name inner =
      materializeNamed ⟨definition, other⟩ coercion declared home name inner := by
  have hreadings : readings ⟨definition, registry⟩ coercion inner =
      readings ⟨definition, other⟩ coercion inner :=
    (materializeAt_same h (.mapping inner)).2 inner rfl
  unfold materializeNamed
  dsimp only
  have hresolve := h.resolve home name
  generalize registry.resolve home name = found at hresolve
  generalize other.resolve home name = also at hresolve
  cases hresolve with
  | error cause => rfl
  | ok hsame =>
    dsimp only
    rw [hreadings, hsame.record, hsame.name]
    split
    · exact makeMember_same hsame ..
    · rfl
    · rfl

/-- **Materializing is the same with both registries.** -/
theorem materializeRoot_same (raw : Tree) (declared : DeclaredType) :
    materializeRoot ⟨definition, registry⟩ coercion raw declared =
      materializeRoot ⟨definition, other⟩ coercion raw declared := by
  have horNamed : ∀ outcome, orNamed ⟨definition, registry⟩ coercion raw declared outcome =
      orNamed ⟨definition, other⟩ coercion raw declared outcome := by
    intro outcome
    unfold orNamed
    simp only [materializeNamed_same h]
    rfl
  unfold materializeRoot
  split
  · next entries type =>
    rw [horNamed, (materializeAt_same h _).2 entries rfl]
    rfl
  · next entries family =>
    rw [horNamed, (materializeAt_same h _).2 entries rfl, makeVariant_same h, materialize_same h]
  · exact materialize_same h raw declared

end Same

end Catalog

/-! ### Registrations in another order -/

namespace Registry

section Rearranged

variable {calls others : List Registration} (hsame : ∀ call, call ∈ calls ↔ call ∈ others)
include hsame

/-- The last registration of some kind is of the same record, if all of the kind are. -/
theorem findRev?_rearranged {p : Registration → Bool}
    (hp : ∀ call ∈ calls, ∀ other ∈ calls, p call → p other → call.type = other.type) :
    (calls.findRev? p).map Registration.type = (others.findRev? p).map Registration.type := by
  rw [List.findRev?_eq_find?_reverse, List.findRev?_eq_find?_reverse]
  cases hcall : calls.reverse.find? p with
  | none =>
    have hnone : others.reverse.find? p = none := by
      rw [List.find?_eq_none] at hcall ⊢
      exact fun call h => hcall call (by simpa [hsame] using h)
    rw [hnone]
  | some call =>
    have hmem : call ∈ calls := List.mem_reverse.mp (List.mem_of_find?_eq_some hcall)
    cases hother : others.reverse.find? p with
    | none =>
      rw [List.find?_eq_none] at hother
      exact absurd (List.find?_some hcall) (hother call (by simpa [← hsame] using hmem))
    | some other =>
      have hmem' : other ∈ calls :=
        (hsame other).mpr (List.mem_reverse.mp (List.mem_of_find?_eq_some hother))
      exact congrArg some
        (hp call hmem other hmem' (List.find?_some hcall) (List.find?_some hother))

theorem keys_rearranged :
    (Entries.keys (ofRegistrations calls)).Perm (Entries.keys (ofRegistrations others)) := by
  refine (List.perm_ext_iff_of_nodup (nodupKeys_ofRegistrations calls)
    (nodupKeys_ofRegistrations others)).mpr fun key => ?_
  simp only [mem_keys_ofRegistrations, hsame]

theorem names_rearranged (home : Namespace) :
    (ofRegistrations calls).names home = (ofRegistrations others).names home := by
  have hsorted (all : List String) : (all.mergeSort fun a b => a ≤ b).Pairwise (· ≤ ·) := by
    have hpairwise := @List.pairwise_mergeSort String fun a b => a ≤ b
    simpa using hpairwise (by simpa using fun a b c => String.le_trans)
      (by simpa using String.le_total) all
  have hperm := ((keys_rearranged hsame).filter (·.1 == home)).map Prod.snd
  refine List.Perm.eq_of_pairwise (fun a b _ _ => String.le_antisymm) (hsorted _) (hsorted _) ?_
  exact ((List.mergeSort_perm _ _).trans hperm).trans (List.mergeSort_perm _ _).symm

variable (hnames : ∀ call ∈ calls, ∀ other ∈ calls,
  call.type.name = other.type.name → call.type = other.type)
include hnames

theorem same_get?_rearranged (key : Namespace × String) :
    Option.Rel RegistryEntry.Same (Entries.get? (ofRegistrations calls) key)
      (Entries.get? (ofRegistrations others) key) := by
  have hkeys := (keys_rearranged hsame).mem_iff (a := key)
  have htypes : ∀ call ∈ calls, ∀ other ∈ calls, call.key = key → other.key = key →
      call.type = other.type := fun call hcall other hother h h' =>
    hnames call hcall other hother (congrArg Prod.snd (h.trans h'.symm))
  cases hentry : Entries.get? (ofRegistrations calls) key with
  | none =>
    rw [Entries.get?_eq_none_iff, hkeys, ← Entries.get?_eq_none_iff] at hentry
    rw [hentry]
    exact .none
  | some entry =>
    cases hother : Entries.get? (ofRegistrations others) key with
    | none =>
      rw [Entries.get?_eq_none_iff, ← hkeys, ← Entries.get?_eq_none_iff, hentry] at hother
      cases hother
    | some other =>
      obtain ⟨hname, hnodup, hrecord, hmade⟩ := reflects_ofRegistrations hentry
      obtain ⟨hname', hnodup', hrecord', hmade'⟩ := reflects_ofRegistrations hother
      have hsameMade : ∀ family, entry.made? family = other.made? family := by
        intro family
        rw [hmade, hmade', findRev?_rearranged hsame]
        exact fun call hcall next hnext h h' =>
          htypes call hcall next hnext (by simp_all) (by simp_all)
      refine .some ⟨hname.trans hname'.symm, ?_, hsameMade, ?_⟩
      · rw [findRev?_rearranged hsame, hrecord'] at hrecord
        · exact (Option.some.inj hrecord).symm
        · exact fun call hcall next hnext h h' =>
            htypes call hcall next hnext (by simp_all) (by simp_all)
      · refine (List.perm_ext_iff_of_nodup hnodup.nodup hnodup'.nodup).mpr fun member => ?_
        obtain ⟨family, type⟩ := member
        rw [← Entries.get?_eq_some_iff hnodup, ← Entries.get?_eq_some_iff hnodup']
        exact Eq.congr_left (hsameMade family)

theorem same_rearranged : (ofRegistrations calls).Same (ofRegistrations others) := by
  intro home name
  have hshort := same_get?_rearranged hsame hnames (home, name)
  have hlong := same_get?_rearranged hsame hnames (home, name ++ optionalSuffix)
  unfold Registry.lookup?
  generalize Entries.get? (ofRegistrations calls) (home, name) = found at hshort
  generalize Entries.get? (ofRegistrations others) (home, name) = also at hshort
  cases hshort with
  | none => simpa using hlong
  | some h => exact .some h

end Rearranged

/-- **The order of registrations does not matter**, nor does it how often each is made, if no two of
the records have one name.  Names are found and listed alike, they stand for the same record and the
same members, and all trees have the same value or the same error.  Only the order in which an entry
lists its families can differ. -/
theorem ofRegistrations_rearranged {calls others : List Registration}
    (hsame : ∀ call, call ∈ calls ↔ call ∈ others)
    (hnames : ∀ call ∈ calls, ∀ other ∈ calls,
      call.type.name = other.type.name → call.type = other.type) :
    let registry := ofRegistrations calls
    let other := ofRegistrations others
    (∀ home name, SameResult (registry.resolve home name) (other.resolve home name) ∧
      registry.contains home name = other.contains home name ∧
      ∀ family, (registry.lookup? home name).map (·.isVariantOf family) =
        (other.lookup? home name).map (·.isVariantOf family)) ∧
    (∀ home, registry.names home = other.names home) ∧
    registry.length = other.length ∧
    ∀ definition coercion raw declared,
      Catalog.materialize ⟨definition, registry⟩ coercion raw declared =
          Catalog.materialize ⟨definition, other⟩ coercion raw declared ∧
        Catalog.materializeRoot ⟨definition, registry⟩ coercion raw declared =
          Catalog.materializeRoot ⟨definition, other⟩ coercion raw declared := by
  have hall := same_rearranged hsame hnames
  refine ⟨fun home name => ⟨hall.resolve home name, ?_⟩, names_rearranged hsame, ?_,
    fun definition coercion raw declared =>
      ⟨Catalog.materialize_same hall raw declared, Catalog.materializeRoot_same hall raw declared⟩⟩
  · have hlookup := hall home name
    unfold Registry.contains
    generalize (ofRegistrations calls).lookup? home name = found at hlookup
    generalize (ofRegistrations others).lookup? home name = also at hlookup
    cases hlookup with
    | none => exact ⟨rfl, fun _ => rfl⟩
    | some h => exact ⟨rfl, fun family => congrArg some (congrArg Option.isSome (h.made family))⟩
  · simpa [Entries.keys] using (keys_rearranged hsame).length_eq

end Registry

namespace Registration

/-- A family of which the members can be used one at a time. -/
def shape : Family := ⟨"lab", "Shape", ⟨"lab"⟩, .single⟩

/-- A family of which the members are used in lists. -/
def part : Family := ⟨"lab", "Part", ⟨"lab"⟩, .multi⟩

/-- A record that can be a member of both. -/
def alpha : RecordType := ⟨"lab", "Alpha"⟩

end Registration

namespace Registry

open Registration

/-- A record is registered in two families, or in the other order and once more on its own. -/
theorem ofRegistrations_rearranged_alpha :
    let registry := ofRegistrations [variant shape alpha, variant part alpha, record ⟨"lab"⟩ alpha]
    let other := ofRegistrations
      [record ⟨"lab"⟩ alpha, variant part alpha, variant shape alpha, record ⟨"lab"⟩ alpha]
    SameResult (registry.resolve ⟨"lab"⟩ "Alpha") (other.resolve ⟨"lab"⟩ "Alpha") ∧
      registry.names ⟨"lab"⟩ = other.names ⟨"lab"⟩ := by
  have hsame : ∀ call : Registration,
      call ∈ [variant shape alpha, variant part alpha, record ⟨"lab"⟩ alpha] ↔
        call ∈ [record ⟨"lab"⟩ alpha, variant part alpha, variant shape alpha,
          record ⟨"lab"⟩ alpha] := by
    simp only [List.mem_cons, List.not_mem_nil, or_false]
    tauto
  obtain ⟨hfound, hlisted, -⟩ := ofRegistrations_rearranged hsame (by simp [Registration.type])
  exact ⟨(hfound ⟨"lab"⟩ "Alpha").1, hlisted ⟨"lab"⟩⟩

/-- **What is left of the order**: a family that is registered again goes to the end. -/
theorem resolve_registeredAgain :
    let calls := [variant shape alpha, variant part alpha]
    let again := calls ++ [variant shape alpha]
    (∀ call, call ∈ calls ↔ call ∈ again) ∧
      (∀ call ∈ calls, ∀ other ∈ calls,
        call.type.name = other.type.name → call.type = other.type) ∧
      ((ofRegistrations calls).resolve ⟨"lab"⟩ "Alpha").map RegistryEntry.families =
        .ok ["Shape", "Part"] ∧
      ((ofRegistrations again).resolve ⟨"lab"⟩ "Alpha").map RegistryEntry.families =
        .ok ["Part", "Shape"] := by
  refine ⟨fun call => ?_, by simp [Registration.type], by decide, by decide⟩
  simp only [List.cons_append, List.nil_append, List.mem_cons, List.not_mem_nil, or_false]
  tauto

end Registry

/-! ### Names that two records have -/

/-- The record that is made for each family is the record of the entry. -/
def RegistryEntry.Consistent (entry : RegistryEntry) : Prop :=
  ∀ family type, entry.made? family = some type → type = entry.record

namespace Registry

open Registration

variable {calls : List Registration}

/-- An entry shows the record of the last registration, and for a family that of the last one in the
family. -/
theorem consistent_iff_of_get? {key : Namespace × String} {entry : RegistryEntry}
    (h : Entries.get? (ofRegistrations calls) key = some entry) :
    entry.Consistent ↔ ∀ family last joined, calls.findRev? (·.key == key) = some last →
      calls.findRev? (fun call => call.key == key && call.joins family) = some joined →
        joined.type = last.type := by
  obtain ⟨-, -, hrecord, hmade⟩ := reflects_ofRegistrations h
  constructor
  · intro hconsistent family last joined hlast hjoined
    rw [hlast] at hrecord
    rw [Option.some.inj hrecord]
    exact hconsistent family joined.type (by rw [hmade, hjoined]; rfl)
  · intro hall family type htype
    rw [hmade] at htype
    obtain ⟨joined, hjoined, rfl⟩ := Option.map_eq_some_iff.mp htype
    obtain ⟨last, hlast, hlastType⟩ := Option.map_eq_some_iff.mp hrecord
    rw [← hlastType]
    exact hall family last joined hlast hjoined

/-- Where a name belongs to one record only, a member is made from the fields of its own schema. -/
theorem makeMember_of_consistent {entry : RegistryEntry} (h : entry.Consistent) {family : Family}
    {type : RecordType} (hmade : entry.made? family = some type) (catalog : Catalog)
    (entries : Entries String Reading) (path : Path) :
    catalog.makeMember entry family entries path =
      catalog.fieldsOf type entries path >>= fun fields =>
        catalog.make (some family) type fields path := by
  unfold Catalog.makeMember
  rw [hmade, h family type hmade]

/-- **When entries are consistent**: exactly if, of each name, the last registration in each family
is of the record that was registered last.  This is so if every name belongs to one record, and then
a member is made from the fields of its own schema. -/
theorem consistent_ofRegistrations_iff (calls : List Registration) :
    ((∀ key entry, Entries.get? (ofRegistrations calls) key = some entry → entry.Consistent) ↔
      ∀ key family last joined, calls.findRev? (·.key == key) = some last →
        calls.findRev? (fun call => call.key == key && call.joins family) = some joined →
          joined.type = last.type) ∧
    ((∀ call ∈ calls, ∀ other ∈ calls, call.key = other.key → call.type = other.type) →
      ∀ key entry, Entries.get? (ofRegistrations calls) key = some entry → entry.Consistent) ∧
    ∀ key entry family type, Entries.get? (ofRegistrations calls) key = some entry →
      entry.Consistent → entry.made? family = some type →
        ∀ (catalog : Catalog) (entries : Entries String Reading) (path : Path),
          catalog.makeMember entry family entries path =
            catalog.fieldsOf type entries path >>= fun fields =>
              catalog.make (some family) type fields path := by
  refine ⟨⟨fun hall key family last joined hlast hjoined => ?_, fun hall key entry hentry => ?_⟩,
    fun hnames key entry hentry => ?_,
    fun _ _ _ _ _ hconsistent hmade => makeMember_of_consistent hconsistent hmade⟩
  · have hkey : key ∈ Entries.keys (ofRegistrations calls) := by
      rw [List.findRev?_eq_find?_reverse] at hlast
      exact mem_keys_ofRegistrations.mpr ⟨last,
        List.mem_reverse.mp (List.mem_of_find?_eq_some hlast), by simpa using List.find?_some hlast⟩
    cases hentry : Entries.get? (ofRegistrations calls) key with
    | none => exact absurd hkey (Entries.get?_eq_none_iff.mp hentry)
    | some entry =>
      exact (consistent_iff_of_get? hentry).mp (hall key entry hentry) family last joined hlast
        hjoined
  · exact (consistent_iff_of_get? hentry).mpr fun family => hall key family
  · refine (consistent_iff_of_get? hentry).mpr fun family last joined hlast hjoined => ?_
    rw [List.findRev?_eq_find?_reverse] at hlast hjoined
    have hlastKey := List.find?_some hlast
    have hjoinedKey := List.find?_some hjoined
    exact hnames joined (List.mem_reverse.mp (List.mem_of_find?_eq_some hjoined)) last
      (List.mem_reverse.mp (List.mem_of_find?_eq_some hlast)) (by simp_all)

/-- A record that is registered in two families is what is made for both. -/
theorem consistent_ofRegistrations_iff_alpha :
    ∃ entry,
      Entries.get? (ofRegistrations [variant shape alpha, variant part alpha]) (⟨"lab"⟩, "Alpha") =
        some entry ∧
      entry.Consistent ∧ entry.made? part = some alpha ∧
      ∀ (catalog : Catalog) (entries : Entries String Reading) (path : Path),
        catalog.makeMember entry part entries path =
          catalog.fieldsOf alpha entries path >>= fun fields =>
            catalog.make (some part) alpha fields path := by
  let calls := [variant shape alpha, variant part alpha]
  let entry : RegistryEntry := ⟨"Alpha", alpha, [(shape, alpha), (part, alpha)]⟩
  have hentry : Entries.get? (ofRegistrations calls) (⟨"lab"⟩, "Alpha") = some entry := by rfl
  have hnames : ∀ call ∈ calls, ∀ other ∈ calls, call.key = other.key → call.type = other.type := by
    simp [calls, Registration.type]
  obtain ⟨-, hconsistent, hmember⟩ := consistent_ofRegistrations_iff calls
  have hentryConsistent := hconsistent hnames _ entry hentry
  exact ⟨entry, hentry, hentryConsistent, rfl,
    hmember _ entry part alpha hentry hentryConsistent rfl⟩

/-- **Two records of one name**: the second replaces the record of the entry but not the member, so
a member is made from the fields of the second record.  It has all of them and yet lacks its own. -/
theorem not_consistent_sharedName :
    let first : RecordType := ⟨"first", "Node"⟩
    let second : RecordType := ⟨"second", "Node"⟩
    let registry := ofRegistrations [variant shape first, record ⟨"lab"⟩ second]
    let schema (field : String) : Schema := ⟨"Node", none, [⟨field, .int, true, none⟩]⟩
    let definition (type : RecordType) : RecordDefinition :=
      let field := if type = first then "x" else "y"
      ⟨schema field, .ofGetters [(field, ⟨.primitive (.integer .signed64), .isMissing⟩)], none⟩
    (∃ entry, registry.resolve ⟨"lab"⟩ "Node" = .ok entry ∧ entry.record = second ∧
      entry.made? shape = some first ∧ ¬ entry.Consistent) ∧
    Catalog.materialize ⟨definition, registry⟩ .strict
        (.mapping [("module_name", .scalar "Node"), ("y", .scalar "1")]) (.variant shape) =
      .error (.located (.missingField "x" "Node") "") := by
  refine ⟨⟨⟨"Node", ⟨"second", "Node"⟩, [(shape, ⟨"first", "Node"⟩)]⟩, rfl, rfl, rfl, ?_⟩, by rfl⟩
  intro hconsistent
  exact absurd (hconsistent shape ⟨"first", "Node"⟩ rfl) (by decide)

end Registry

end ConfigTree
