import LocaleAudit.Project
import LocaleAudit.Proofs.FileTree.Removal
import LocaleAudit.Proofs.Path

/-!
# LocaleAudit.Proofs.Config.Load

The configuration of a tree, and that of the same tree without a file.

* `load_remove` — files with other names do not matter for the search and what it finds;
* `ofOptions_remove` — nor for the project.
-/

namespace LocaleAudit

open LocaleAudit.Path Place Entry

namespace Config

theorem plainName_fileName : PlainName fileName := by decide

theorem plainName_git : PlainName ".git" := by decide

section removal

variable {tree : Entry} {gone : List String} (hgone : Removal tree gone)
include hgone

/-- What is in a file whose name is not that of the file which is removed. -/
theorem find?_join_remove {name : String} (hname : PlainName name)
    (hother : gone.getLast? ≠ some name) (directory : String) :
    (Place.find? (remove gone tree) (join directory name)).map (·.entry.content?) =
      (Place.find? tree (join directory name)).map (·.entry.content?) := by
  have hcs := components_join hname directory
  have hlocation : locationOf (components (join directory name)) ≠ some gone := by
    rw [hcs, locationOf_concat, locate]
    intro heq
    obtain ⟨above, -, rfl⟩ := Option.map_eq_some_iff.1 heq
    exact hother List.getLast?_concat
  have hsame := isSome_walk_remove hgone hlocation
  rw [find?_eq_walk, find?_eq_walk]
  cases hp : walk tree (components (join directory name)) with
  | none =>
      rw [hp, Option.isSome_none, Option.isSome_eq_false_iff, Option.isNone_iff_eq_none] at hsame
      rw [hsame]
  | some p =>
      rw [hp] at hsame
      obtain ⟨p', hp'⟩ := Option.isSome_iff_exists.1 hsame
      rw [hp', Option.map_some, Option.map_some, (thinned_of_walk hgone hp hp').2.content]

theorem exists?_remove {name : String} (hname : PlainName name)
    (hother : gone.getLast? ≠ some name) (directory : String) :
    exists? (remove gone tree) (join directory name) = exists? tree (join directory name) := by
  have hsame := congrArg Option.isSome (find?_join_remove hgone hname hother directory)
  rwa [Option.isSome_map, Option.isSome_map] at hsame

variable (hfile : gone.getLast? ≠ some fileName) (hrepository : gone.getLast? ≠ some ".git")
include hfile hrepository

/-- **The search** for a configuration file does not depend on files with other names. -/
theorem search_remove (left : Nat) (directory : String) :
    search (remove gone tree) left directory = search tree left directory := by
  induction left generalizing directory with
  | zero => rfl
  | succ left ih =>
      rw [search, search, exists?_remove hgone plainName_fileName hfile,
        exists?_remove hgone plainName_git hrepository]
      rw [funext ih]

omit hgone hfile hrepository in
theorem exists_of_search {left : Nat} {directory path : String}
    (h : search tree left directory = some path) : ∃ above, path = join above fileName := by
  induction left generalizing directory with
  | zero => contradiction
  | succ left ih =>
      rw [search] at h
      split at h
      · exact ⟨directory, (Option.some.inj h).symm⟩
      · split at h
        · contradiction
        · obtain ⟨above, -, h⟩ := Option.bind_eq_some_iff.1 h
          exact ih h

omit hgone hfile hrepository in
theorem ofContent_congr {path : String} {e e' : Entry} (h : e'.content? = e.content?) :
    ofContent path e' = ofContent path e := by
  rw [ofContent, ofContent, Entry.read, Entry.read, h]

/-- **The configuration** does not depend on files with other names. -/
theorem load_remove (directory : String) :
    load (remove gone tree) directory = load tree directory := by
  rw [load, load, find?, find?, search_remove hgone hfile hrepository]
  cases hsearch : search tree ((components directory).length + 1) directory with
  | none => rfl
  | some path =>
      obtain ⟨above, rfl⟩ := exists_of_search hsearch
      have hsame := find?_join_remove hgone plainName_fileName hfile above
      dsimp only
      cases hp : Place.find? tree (join above fileName) with
      | none =>
          rw [hp, Option.map_none, Option.map_eq_none_iff] at hsame
          rw [hsame]
      | some p =>
          rw [hp, Option.map_some] at hsame
          obtain ⟨p', hp', hcontent⟩ := Option.map_eq_some_iff.1 hsame
          rw [hp']
          dsimp only
          rw [ofContent_congr hcontent]

end removal

end Config

/-- **The project** does not depend on files with other names than those that are searched for. -/
theorem Project.ofOptions_remove {tree : Entry} {gone : List String} (hgone : Removal tree gone)
    (hfile : gone.getLast? ≠ some Config.fileName) (hrepository : gone.getLast? ≠ some ".git")
    (o : Options) : ofOptions (remove gone tree) o = ofOptions tree o := by
  rw [ofOptions, ofOptions, Config.load_remove hgone hfile hrepository]

end LocaleAudit
