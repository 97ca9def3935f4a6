import LocaleAudit.Proofs.Config.Load
import LocaleAudit.Proofs.Path.Parent
import Mathlib.Data.List.Infix

/-!
# LocaleAudit.Proofs.Config.Search

Where the configuration file of a directory is searched for.  The search shortens the path of the
directory by one component at a time, so what it looks through are the beginnings of that path.
These are the directories above as long as the path itself only goes down or comes back up to where
it has been.

* `met_of_search`, `not_met_of_search` — the search along the beginnings of a path;
* `exists_last_at` — a path that gets below a directory has been in it;
* `find?_nearest` — the file that is found is the nearest one above.
-/

namespace LocaleAudit.Config

open LocaleAudit.Path Place Entry

/-! ## along a path -/

/-- An entry of the given name is in the directory that a path leads to. -/
def holds (tree : Entry) (path : List Component) (name : String) : Bool :=
  (walk tree (path ++ [.name name])).isSome

/-- The configuration file that a search along a path meets first, and nothing stops it before. -/
structure Met (tree : Entry) (path found : List Component) : Prop where
  /-- It is in a directory that the path leads through. -/
  along : found <+: path
  /-- There is such a file. -/
  file : holds tree found fileName = true
  /-- There is none further along the path, and no repository starts there. -/
  free : ∀ between, found <+: between → between <+: path → between ≠ found →
    holds tree between fileName = false ∧ holds tree between ".git" = false

section search

variable {tree : Entry} {directory path : String} {left : Nat} {found : List Component}

theorem exists?_join {name : String} (h : PlainName name) :
    exists? tree (join directory name) = holds tree (components directory) name := by
  rw [exists?, find?_eq_walk, components_join h, holds]

/-- **What is found** is the configuration file that is met first. -/
theorem met_of_search (h : search tree left directory = some path) :
    ∃ found, Met tree (components directory) found ∧
      components path = found ++ [.name fileName] := by
  induction left generalizing directory with
  | zero => contradiction
  | succ left ih =>
      rw [search, exists?_join plainName_fileName, exists?_join plainName_git] at h
      split at h
      · rename_i hfile
        obtain rfl := Option.some.inj h
        refine ⟨components directory, ⟨List.prefix_rfl, hfile, ?_⟩,
          components_join plainName_fileName directory⟩
        exact fun between hfrom hto hne =>
          absurd (hto.eq_of_length_le hfrom.length_le) hne
      · rename_i hfile
        split at h
        · contradiction
        · rename_i hgit
          obtain ⟨up, hup, h⟩ := Option.bind_eq_some_iff.1 h
          obtain ⟨found, hmet, hpath⟩ := ih h
          obtain ⟨c, hc⟩ := components_of_parent? hup
          refine ⟨found, ⟨?_, hmet.file, fun between hfrom hto hne => ?_⟩, hpath⟩
          · rw [hc]
            exact hmet.along.trans (List.prefix_append _ _)
          · rw [hc, List.prefix_concat_iff, ← hc] at hto
            rcases hto with rfl | hto
            · exact ⟨by simpa using hfile, by simpa using hgit⟩
            · exact hmet.free between hfrom hto hne

/-- If nothing is found, no configuration file is met. -/
theorem not_met_of_search (h : search tree left directory = none)
    (hleft : (components directory).length < left) (hroot : .root ∉ components directory) :
    ¬ Met tree (components directory) found := by
  induction left generalizing directory with
  | zero => contradiction
  | succ left ih =>
      intro hmet
      rw [search, exists?_join plainName_fileName, exists?_join plainName_git] at h
      split at h
      · contradiction
      · rename_i hfile
        have hne : components directory ≠ found := fun heq => hfile (heq ▸ hmet.file)
        have hgit := (hmet.free _ hmet.along List.prefix_rfl hne).2
        rw [hgit, if_neg Bool.false_ne_true, Option.bind_eq_none_iff] at h
        cases hparent : parent? directory with
        | none =>
            rcases components_of_parent?_eq_none hparent with hnil | hone
            · exact hne (hnil.trans (List.prefix_nil.1 (hnil ▸ hmet.along)).symm)
            · exact hroot (hone ▸ List.mem_cons_self)
        | some up =>
            obtain ⟨c, hc⟩ := components_of_parent? hparent
            have hfound : found <+: components up := by
              have halong := hmet.along
              rw [hc, List.prefix_concat_iff, ← hc] at halong
              exact halong.resolve_left hne.symm
            have hup : components up <+: components directory := hc ▸ List.prefix_append _ _
            refine ih (h up hparent) ?_ (fun hin => hroot (hup.subset hin)) ⟨hfound, hmet.file, ?_⟩
            · rw [hc, List.length_append, List.length_singleton] at hleft
              omega
            · exact fun between hfrom hto => hmet.free between hfrom (hto.trans hup)

end search

/-! ## in the tree -/

/-- The nearest configuration file, in the directory of the given names or one above. -/
structure Nearest (tree : Entry) (names above : List String) : Prop where
  /-- It is in that directory or above. -/
  upward : above <+: names
  /-- There is such a file. -/
  file : (tree.at? (above ++ [fileName])).isSome = true
  /-- There is none further down, and no repository starts there. -/
  free : ∀ between, above <+: between → between <+: names → between ≠ above →
    tree.at? (between ++ [fileName]) = none ∧ tree.at? (between ++ [".git"]) = none

/-- A path leads through no other directories than those of the given names and above. -/
def Ascends (path : List Component) (names : List String) : Prop :=
  ∀ part up, part <+: path → locationOf part = some up → up <+: names

section tree

variable {tree : Entry} {path part found : List Component} {names up above : List String}
  {p : Place}

/-- A path that does not go up goes down to where it leads. -/
theorem ascends_of_not_mem (h : .parent ∉ path) (hpath : locationOf path = some names) :
    Ascends path names := by
  induction path using List.reverseRecOn generalizing names with
  | nil =>
      intro part up hpart hup
      obtain rfl := List.prefix_nil.1 hpart
      exact Option.some.inj (hup.symm.trans hpath) ▸ List.prefix_rfl
  | append_singleton path c ih =>
      intro part up hpart hup
      rw [List.mem_append, List.mem_singleton, not_or] at h
      rcases List.prefix_concat_iff.1 hpart with rfl | hbefore
      · exact Option.some.inj (hup.symm.trans hpath) ▸ List.prefix_rfl
      · rw [locationOf_concat] at hpath
        cases c with
        | root => exact ih h.1 hpath part up hbefore hup
        | current => exact ih h.1 hpath part up hbefore hup
        | parent => exact absurd rfl h.2
        | name n =>
            obtain ⟨inner, hinner, rfl⟩ := Option.map_eq_some_iff.1 hpath
            exact (ih h.1 hinner part up hbefore hup).trans (List.prefix_append _ _)

/-- **A path that gets below a directory has been in it**, and stays below it from the last time
on. -/
theorem exists_last_at (hpath : locationOf path = some names) (habove : above <+: names) :
    ∃ found, found <+: path ∧ locationOf found = some above ∧
      ∀ between up, found <+: between → between <+: path → between ≠ found →
        locationOf between = some up → above <+: up ∧ up ≠ above := by
  induction path using List.reverseRecOn generalizing names with
  | nil =>
      obtain rfl := Option.some.inj hpath
      obtain rfl := List.prefix_nil.1 habove
      refine ⟨[], List.prefix_rfl, rfl, fun between up _ hto hne => ?_⟩
      exact absurd (List.prefix_nil.1 hto) hne
  | append_singleton path c ih =>
      by_cases heq : names = above
      · refine ⟨path ++ [c], List.prefix_rfl, heq ▸ hpath, fun between up hfrom hto hne => ?_⟩
        exact absurd (hto.eq_of_length_le hfrom.length_le) hne
      · -- one step before, the path is below the directory too, or in it
        have hbefore : ∃ inner, locationOf path = some inner ∧ above <+: inner := by
          rw [locationOf_concat] at hpath
          cases c with
          | root => exact ⟨names, hpath, habove⟩
          | current => exact ⟨names, hpath, habove⟩
          | parent =>
              obtain ⟨inner, hinner, hlast⟩ := Option.bind_eq_some_iff.1 hpath
              refine ⟨inner, hinner, ?_⟩
              split at hlast
              · contradiction
              · obtain rfl := Option.some.inj hlast
                exact habove.trans (List.dropLast_prefix inner)
          | name n =>
              obtain ⟨inner, hinner, rfl⟩ := Option.map_eq_some_iff.1 hpath
              exact ⟨inner, hinner, (List.prefix_concat_iff.1 habove).resolve_left (Ne.symm heq)⟩
        obtain ⟨inner, hinner, hbelow⟩ := hbefore
        obtain ⟨found, hfound, hat, hfree⟩ := ih hinner hbelow
        refine ⟨found, hfound.trans (List.prefix_append _ _), hat,
          fun between up hfrom hto hne hup => ?_⟩
        rcases List.prefix_concat_iff.1 hto with rfl | hto
        · obtain rfl := Option.some.inj (hpath.symm.trans hup)
          exact ⟨habove, heq⟩
        · exact hfree between up hfrom hto hne hup

theorem exists_walk_of_prefix (hpath : walk tree path = some p) (hpart : part <+: path) :
    ∃ q, walk tree part = some q := by
  obtain ⟨rest, rfl⟩ := hpart
  rw [walk, List.foldlM_append] at hpath
  obtain ⟨q, hq, -⟩ := Option.bind_eq_some_iff.1 hpath
  exact ⟨q, hq⟩

/-- What is in a directory that a path leads through. -/
theorem holds_eq (hpath : walk tree path = some p) (hpart : part <+: path)
    (hup : locationOf part = some up) (name : String) :
    holds tree part name = (tree.at? (up ++ [name])).isSome := by
  obtain ⟨q, hq⟩ := exists_walk_of_prefix hpath hpart
  have htrail := (trail_of_walk hq).1
  rw [hup] at htrail
  rw [holds, walk_concat, hq, at?_concat, htrail.at?, Option.bind_some, Option.bind_some, step?,
    Option.isSome_map]

theorem location?_of_walk (hpath : walk tree path = some p) : p.location? = locationOf path := by
  rw [location?, (trail_of_walk hpath).2, locationOf_filter]

theorem root_not_mem_of_walk (hpath : walk tree path = some p) : .root ∉ path := by
  intro hroot
  obtain ⟨before, rest, rfl⟩ := List.append_of_mem hroot
  have hpart : before ++ [.root] <+: before ++ .root :: rest := ⟨rest, by simp⟩
  obtain ⟨q, hq⟩ := exists_walk_of_prefix hpath hpart
  rw [walk_concat] at hq
  obtain ⟨r, -, hstep⟩ := Option.bind_eq_some_iff.1 hq
  contradiction

theorem exists_location (hpath : locationOf path = some names) (hpart : part <+: path) :
    ∃ up, locationOf part = some up := by
  obtain ⟨rest, rfl⟩ := hpart
  induction rest using List.reverseRecOn generalizing names with
  | nil => exact ⟨names, by rwa [List.append_nil] at hpath⟩
  | append_singleton rest c ih =>
      rw [← List.append_assoc, locationOf_concat] at hpath
      cases hrest : locationOf (part ++ rest) with
      | none =>
          rw [hrest] at hpath
          cases c <;> contradiction
      | some inner => exact ih hrest

section ascends

variable (hpath : walk tree path = some p) (hnames : locationOf path = some names)
  (hascends : Ascends path names)
include hpath hnames hascends

/-- The file that is met first on a path that ascends is the nearest one. -/
theorem Met.nearest (h : Met tree path found) :
    ∃ above, locationOf found = some above ∧ Nearest tree names above := by
  obtain ⟨above, habove⟩ := exists_location hnames h.along
  refine ⟨above, habove, hascends found above h.along habove, ?_, fun between hfrom hto hne => ?_⟩
  · rw [← holds_eq hpath h.along habove]
    exact h.file
  · obtain ⟨last, hlast, hat, hfree⟩ := exists_last_at hnames hto
    have hnefound : last ≠ found := by
      rintro rfl
      exact hne (Option.some.inj (hat.symm.trans habove))
    have hfound : found <+: last := by
      refine (List.prefix_or_prefix_of_prefix h.along hlast).resolve_right fun hbefore => ?_
      obtain ⟨hbelow, hother⟩ := hfree found above hbefore h.along hnefound.symm habove
      exact hother (hfrom.eq_of_length_le hbelow.length_le)
    obtain ⟨hfile, hgit⟩ := h.free last hfound hlast hnefound
    rw [holds_eq hpath hlast hat, Option.isSome_eq_false_iff, Option.isNone_iff_eq_none]
      at hfile hgit
    exact ⟨hfile, hgit⟩

/-- The nearest file is met first on a path that ascends. -/
theorem Nearest.met (h : Nearest tree names above) : ∃ found, Met tree path found := by
  obtain ⟨found, hfound, hat, hfree⟩ := exists_last_at hnames h.upward
  refine ⟨found, hfound, ?_, fun between hfrom hto hne => ?_⟩
  · rw [holds_eq hpath hfound hat]
    exact h.file
  · obtain ⟨up, hup⟩ := exists_location hnames hto
    obtain ⟨hbelow, hother⟩ := hfree between up hfrom hto hne hup
    obtain ⟨hfile, hgit⟩ := h.free up hbelow (hascends between up hto hup) hother
    rw [holds_eq hpath hto hup, holds_eq hpath hto hup, hfile, hgit]
    exact ⟨rfl, rfl⟩

end ascends

end tree

/-! ## the configuration file of a directory -/

/-- **The configuration file of a directory** is the one that is met first along its path, and if
the path ascends that is the nearest one in the directory or above. -/
theorem find?_nearest {tree : Entry} {root : String} {p : Place}
    (hroot : Place.find? tree root = some p) :
    (∀ path, find? tree root = some path →
      ∃ found, Met tree (components root) found ∧ components path = found ++ [.name fileName]) ∧
    (find? tree root = none → ∀ found, ¬ Met tree (components root) found) ∧
    ∀ names, p.location? = some names → Ascends (components root) names →
      (∀ path, find? tree root = some path → ∃ above q, Nearest tree names above ∧
        Place.find? tree path = some q ∧ q.location? = some (above ++ [fileName])) ∧
      (find? tree root = none ↔ ∀ above, ¬ Nearest tree names above) := by
  have hwalk : walk tree (components root) = some p := hroot
  have hmet {path : String} (h : find? tree root = some path) := met_of_search h
  have hnone (h : find? tree root = none) (found : List Component) :
      ¬ Met tree (components root) found :=
    not_met_of_search h (Nat.lt_succ_self _) (root_not_mem_of_walk hwalk)
  refine ⟨fun path h => hmet h, hnone, fun names hnames hascends => ?_⟩
  rw [location?_of_walk hwalk] at hnames
  refine ⟨fun path h => ?_, fun h above hnearest => ?_, fun h => ?_⟩
  · obtain ⟨found, hfound, hpath⟩ := hmet h
    obtain ⟨above, habove, hnearest⟩ := hfound.nearest hwalk hnames hascends
    obtain ⟨q, hq⟩ := Option.isSome_iff_exists.1 hfound.file
    refine ⟨above, q, hnearest, by rw [find?_eq_walk, hpath, hq], ?_⟩
    rw [location?_of_walk hq, locationOf_concat, habove]
    rfl
  · obtain ⟨found, hfound⟩ := hnearest.met hwalk hnames hascends
    exact hnone h found hfound
  · refine Option.eq_none_iff_forall_ne_some.2 fun path hpath => ?_
    obtain ⟨found, hfound, -⟩ := hmet hpath
    obtain ⟨above, -, hnearest⟩ := hfound.nearest hwalk hnames hascends
    exact h above hnearest

/-- A tree with a configuration file in a directory, and none in the working directory. -/
def innerTree : Entry :=
  .directory [("app", .directory
    [(".keycheckrc.json", .file (.text "{}".toList)), ("src", .directory [])])]

/-- The file of the directory above, for a path with single and double dots. -/
theorem find?_nearest_dotted :
    ∃ p, Place.find? innerTree "./app/src/../src/." = some p ∧ p.location? = some ["app", "src"] ∧
      Ascends (components "./app/src/../src/.") ["app", "src"] ∧
      find? innerTree "./app/src/../src/." = some "./app/src/../.keycheckrc.json" ∧
      ∃ above q, Nearest innerTree ["app", "src"] above ∧
        Place.find? innerTree "./app/src/../.keycheckrc.json" = some q ∧
        q.location? = some (above ++ [fileName]) := by
  have hascends : Ascends (components "./app/src/../src/.") ["app", "src"] := by
    have hall : ∀ part ∈ (components "./app/src/../src/.").inits, ∀ up ∈ locationOf part,
        up <+: ["app", "src"] := by decide
    exact fun part up hpart hup => hall part ((List.mem_inits _ _).2 hpart) up hup
  have hfind : find? innerTree "./app/src/../src/." = some "./app/src/../.keycheckrc.json" := by
    decide +kernel
  refine ⟨_, rfl, rfl, hascends, hfind, ?_⟩
  exact ((find?_nearest (p := _) rfl).2.2 _ rfl hascends).1 _ hfind

/-- From a directory that is reached by way of another one, the search goes down into that one: it
finds a file that is not above. -/
theorem found_below :
    ∃ p, Place.find? innerTree "app/.." = some p ∧ p.location? = some [] ∧
      find? innerTree "app/.." = some "app/.keycheckrc.json" ∧
      (Place.find? innerTree "app/.keycheckrc.json").bind (·.location?) =
        some ["app", fileName] ∧
      ¬ ∃ above q, Nearest innerTree [] above ∧
        Place.find? innerTree "app/.keycheckrc.json" = some q ∧
        q.location? = some (above ++ [fileName]) := by
  refine ⟨_, rfl, rfl, by decide +kernel, by decide +kernel, ?_⟩
  rintro ⟨above, q, hnearest, -, -⟩
  have hfile := hnearest.file
  obtain rfl := List.prefix_nil.1 hnearest.upward
  contradiction

end LocaleAudit.Config
