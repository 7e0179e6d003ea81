import ConfigTree.Command.Basic
import ConfigTree.Proofs.Entries

/-! # Names that a context gives a value

A name may be spelled with dashes in front, and a context is made in two steps: first of the keys as
they are spelled, then of the names they spell.  The first step keeps the last value of each
spelling, but leaves the spelling where it came first; so in the second step the spelling counts
that *came first* the latest, and not the one that was used last (`get?_contextOf`).

The two are the same spelling unless one that was there before is used again behind a newer one.
Then the value that was given last is lost to an earlier one (`contextOf_takesEarlier`).
-/
namespace ConfigTree
namespace Template.Context

/-- The arguments that give a name a value: the pairs whose key is the name, but for the dashes. -/
def given (arguments : List String) (name : String) : List (String × String) :=
  (pairUp arguments).filter fun pair => stripDashes pair.1 = name

/-- The spellings of a name, in the order in which each came first. -/
def spellings (arguments : List String) (name : String) : List String :=
  (Entries.keys (given arguments name)).eraseDups

/-- Stripping dashes leaves of each name the last of its spellings. -/
theorem get?_withoutDashes (context : Context) (name : String) :
    Entries.get? context.withoutDashes name =
      (context.filter fun entry => stripDashes entry.1 = name).getLast?.map Prod.snd := by
  rw [withoutDashes, Entries.get?_ofList, Entries.get?_eq_head?, List.filter_reverse,
    List.head?_reverse, List.filter_map, List.getLast?_map, Option.map_map]
  rfl

theorem filter_ofList_pairUp (arguments : List String) (name : String) :
    (Entries.ofList (pairUp arguments)).filter (fun entry => stripDashes entry.1 = name) =
      Entries.ofList (given arguments name) :=
  Entries.filter_ofList (fun key => stripDashes key = name) (pairUp arguments)

end Template.Context

namespace Command

open Template.Context

theorem contextOf_eq_ok {arguments : List String} (h : arguments.length % 2 = 0) :
    contextOf arguments = .ok (withoutDashes (Entries.ofList (pairUp arguments))) := by
  rw [contextOf, ofArguments, if_pos h]
  rfl

/-- **A name has the last value of its newest spelling.**  Arguments that pair up are a context.  A
name has a value in it exactly if some pair gives it one; then it has the last value that was given
under the spelling that came first the latest.  This is the value of the last pair of all if that
pair is spelled so. -/
theorem get?_contextOf (arguments : List String) (h : arguments.length % 2 = 0) :
    ∃ context, contextOf arguments = .ok context ∧ ∀ name,
      (Entries.get? context name = none ↔ given arguments name = []) ∧
      ∀ last, (given arguments name).getLast? = some last →
        ∃ newest ∈ given arguments name,
          (spellings arguments name).getLast? = some newest.1 ∧
          ((given arguments name).filter fun pair => pair.1 = newest.1).getLast? = some newest ∧
          Entries.get? context name = some newest.2 ∧
          (newest.1 = last.1 → newest = last) := by
  refine ⟨_, contextOf_eq_ok h, fun name => ?_⟩
  rw [get?_withoutDashes, filter_ofList_pairUp, Option.map_eq_none_iff, List.getLast?_eq_none_iff,
    Entries.ofList_eq_nil_iff]
  refine ⟨Iff.rfl, fun last hlast => ?_⟩
  have hne : Entries.ofList (given arguments name) ≠ [] := fun hnil => by
    rw [Entries.ofList_eq_nil_iff.mp hnil] at hlast
    cases hlast
  obtain ⟨newest, hnewest⟩ := Option.ne_none_iff_exists'.mp (mt List.getLast?_eq_none_iff.mp hne)
  obtain ⟨hspelling, hvalue⟩ := Entries.getLast?_ofList_eq_some hnewest
  refine ⟨newest, Entries.mem_of_mem_ofList (List.mem_of_getLast? hnewest), hspelling, hvalue, ?_,
    fun hsame => ?_⟩
  · rw [hnewest, Option.map_some]
  · have hfound : ((given arguments name).filter fun pair => pair.1 = last.1).getLast? =
        some last := by
      obtain ⟨before, hbefore⟩ := List.getLast?_eq_some_iff.mp hlast
      simp [hbefore]
    rw [hsame, hfound] at hvalue
    exact (Option.some.inj hvalue).symm

/-- The name `k` has two spellings, both used twice in turn; the newer one was used last. -/
theorem get?_contextOf_repeated :
    ∃ arguments : List String, arguments = ["-k", "1", "--k", "2", "-k", "3", "--k", "4"] ∧
      arguments.length % 2 = 0 ∧ (given arguments "k").getLast? = some ("--k", "4") ∧
      spellings arguments "k" = ["-k", "--k"] ∧
      ∃ context, contextOf arguments = .ok context ∧ Entries.get? context "k" = some "4" ∧
        Entries.get? context "l" = none := by
  let arguments := ["-k", "1", "--k", "2", "-k", "3", "--k", "4"]
  have hspellings : spellings arguments "k" = ["-k", "--k"] := by decide
  have hlast : (given arguments "k").getLast? = some ("--k", "4") := by decide
  obtain ⟨context, hcontext, hnames⟩ := get?_contextOf arguments (by decide)
  obtain ⟨newest, -, hnewest, -, hvalue, hsame⟩ := (hnames "k").2 _ hlast
  have hkey : newest.1 = "--k" := by
    rw [hspellings] at hnewest
    exact (Option.some.inj hnewest).symm
  rw [hsame hkey] at hvalue
  exact ⟨arguments, rfl, by decide, hlast, hspellings, context, hcontext, hvalue,
    (hnames "l").1.mpr (by decide)⟩

/-- If the older spelling is used again, what it gives the name does not count, although it comes
last. -/
theorem contextOf_takesEarlier :
    ∃ arguments : List String, arguments = ["--k", "1", "-k", "2", "--k", "3"] ∧
      arguments.length % 2 = 0 ∧ (given arguments "k").getLast? = some ("--k", "3") ∧
      spellings arguments "k" = ["--k", "-k"] ∧ contextOf arguments = .ok [("k", "2")] :=
  ⟨_, rfl, by decide, by decide, by decide, by decide⟩

end Command

end ConfigTree
