import LocaleAudit.Proofs.Key.Link
import LocaleAudit.Proofs.Locale.Attribution
import LocaleAudit.Proofs.Run

/-!
# LocaleAudit.Proofs.Rule.Spared

Keys that are spared by the rule of unused keys.  A key is needed if a source file uses it, or if a
message links to it; neither it nor any key above or below it is unused then, as long as the
locales can be told from the paths.

* `mem_expectedKeys_iff` — the keys that are needed are those which catalogs should have;
* `mem_unusedIssuesOf_of_mem_check` — each issue of an unused key is that of a catalog;
* `needed_spared` — no issue of a catalog is about a key that overlaps with one that is needed.
-/

namespace LocaleAudit

open Key LocaleAudit.Locale

/-- The keys that the catalogs of a library link to. -/
theorem Locale.Library.mem_linkedKeys_iff {l : Library} {key : String} :
    key ∈ l.linkedKeys ↔
      ∃ c ∈ l.catalogs, ∃ s, HoldsString s c.messages ∧ key.toList ∈ links s.toList := by
  simp only [Library.linkedKeys, KeySet.mem_ofList, List.mem_flatMap, mem_linksIn_iff]

namespace Project

/-! ## keys that are needed -/

variable {p : Project} {tree : Entry}

/-- Something needs a key: a source file uses it, or a string in a catalog links to it. -/
inductive Needs (p : Project) (tree : Entry) (key : String) : Prop
  | used (h : key ∈ (p.usedKeys tree).keys)
  | linked {c : Catalog} {s : String} (hc : c ∈ (p.library tree).catalogs)
      (hs : HoldsString s c.messages) (hkey : key.toList ∈ links s.toList)

/-- The issues of the unused keys of a catalog. -/
def unusedIssuesOf (p : Project) (tree : Entry) (c : Catalog) : List Issue :=
  Rule.unusedIssues (p.expectedKeys tree) [c]

/-- **The keys that catalogs should have** are those that something needs. -/
theorem mem_expectedKeys_iff {key : String} : key ∈ p.expectedKeys tree ↔ p.Needs tree key := by
  rw [expectedKeys, KeySet.mem_union, Library.mem_linkedKeys_iff]
  constructor
  · rintro (hused | ⟨c, hc, s, hs, hkey⟩)
    · exact .used hused
    · exact .linked hc hs hkey
  · rintro (hused | ⟨hc, hs, hkey⟩)
    · exact .inl hused
    · exact .inr ⟨_, hc, _, hs, hkey⟩

/-! ## issues of a check -/

theorem rule_of_mem_missingIssues {used : UsedKeys} {catalogs : List Catalog} {issue : Issue}
    (h : issue ∈ Rule.missingIssues used catalogs) : issue.rule = .missingKey := by
  obtain ⟨u, -, h⟩ := List.mem_flatMap.1 h
  obtain ⟨l, -, rfl⟩ := List.mem_map.1 h
  rfl

theorem rule_of_mem_failureIssues {issue : Issue} (h : issue ∈ p.failureIssues tree) :
    issue.rule ≠ .unusedKey := by
  obtain ⟨failure, -, rfl⟩ := List.mem_map.1 h
  cases failure with
  | configuration => exact nofun
  | parse => exact nofun

/-- An issue of an unused key that a rule gives is that of a catalog. -/
theorem mem_unusedIssuesOf_of_mem_issuesOf {check : Check} {issue : Issue}
    (h : issue ∈ p.issuesOf tree check) (hrule : issue.rule = .unusedKey) :
    ∃ c ∈ (p.library tree).catalogs, issue ∈ p.unusedIssuesOf tree c := by
  unfold issuesOf at h
  split at h
  · contradiction
  · cases check with
    | unused =>
        obtain ⟨c, hc, h⟩ := List.mem_flatMap.1 h
        exact ⟨c, hc, List.mem_flatMap.2 ⟨c, List.mem_cons_self, h⟩⟩
    | missing =>
        rw [rule_of_mem_missingIssues h] at hrule
        contradiction

/-- **Each issue of an unused key** in the outcome of a check is that of a catalog. -/
theorem mem_unusedIssuesOf_of_mem_check {checks : List Check} {issue : Issue}
    (h : issue ∈ (p.check tree checks).issues) (hrule : issue.rule = .unusedKey) :
    ∃ c ∈ (p.library tree).catalogs, issue ∈ p.unusedIssuesOf tree c := by
  rcases mem_issues_check_iff.1 h with ⟨check, -, h⟩ | h
  · exact mem_unusedIssuesOf_of_mem_issuesOf h hrule
  · exact absurd hrule (rule_of_mem_failureIssues h)

/-! ## keys that are spared -/

/-- A key that is unused in a catalog does not overlap with one that is needed. -/
theorem not_overlaps_of_mem_unusedIssuesOf {c : Catalog} (hc : c.Undotted)
    {context : MessageContext} (h : .unusedKey context ∈ p.unusedIssuesOf tree c) {key : String}
    (hkey : p.Needs tree key) : ¬ Overlaps key context.key := by
  obtain ⟨d, hd, hissue⟩ := List.mem_flatMap.1 h
  obtain rfl := List.mem_singleton.1 hd
  obtain ⟨f, hf, hfound⟩ := List.mem_filterMap.1 hissue
  obtain ⟨m, -, heq⟩ := Option.map_eq_some_iff.1 hfound
  obtain rfl := Issue.unusedKey.inj heq
  exact ((Catalog.mem_unusedKeys_iff_key hc).1 hf).2.2.2 key (mem_expectedKeys_iff.2 hkey)

/-- **Needed keys are spared**: each issue of an unused key in the outcome of a check is that of a
catalog, and if there are no dots in the names of the locales of a catalog of several, no such issue
is about a key that something needs, or about a key above or below it. -/
theorem needed_spared (p : Project) (tree : Entry) (checks : List Check) :
    (∀ context, .unusedKey context ∈ (p.check tree checks).issues →
      ∃ c ∈ (p.library tree).catalogs, .unusedKey context ∈ p.unusedIssuesOf tree c) ∧
    ∀ c ∈ (p.library tree).catalogs, c.Undotted → ∀ key, p.Needs tree key →
      ∀ context, .unusedKey context ∈ p.unusedIssuesOf tree c → ¬ Overlaps key context.key :=
  ⟨fun _ h => mem_unusedIssuesOf_of_mem_check h rfl,
    fun _ _ hc _ hkey _ h => not_overlaps_of_mem_unusedIssuesOf hc h hkey⟩

/-- A project with one catalog and without source files. -/
def linkingProject : Project := ⟨".", {}, none, [⟨"en.json", .file⟩]⟩

/-- The tree of the project, in which one message links to another. -/
def linkingTree : Entry :=
  .directory [("en.json", .file (.text
    "\x7b\"a\":[\"@:b\"],\"b\":\x7b\"c\":1\x7d,\"d\":2\x7d".toList))]

/-- A key below the one that is linked to is spared, and another one is not. -/
theorem needed_spared_linking :
    linkingProject.Needs linkingTree "b" ∧
      .unusedKey ⟨"en.json", ⟨1, 26⟩, "d", "en", "2"⟩ ∈
        (linkingProject.check linkingTree []).issues ∧
      ∀ context, .unusedKey context ∈ (linkingProject.check linkingTree []).issues →
        ¬ Overlaps "b" context.key := by
  have hneeds : linkingProject.Needs linkingTree "b" := mem_expectedKeys_iff.1 (by decide +kernel)
  refine ⟨hneeds, ?_, fun context h => ?_⟩
  · rw [mem_issues_check_iff]
    exact .inl ⟨.unused, List.mem_cons_self, by decide +kernel⟩
  · obtain ⟨hcatalog, hspared⟩ := needed_spared linkingProject linkingTree []
    obtain ⟨c, hc, hissue⟩ := hcatalog context h
    have hfile : ∀ c ∈ (linkingProject.library linkingTree).catalogs, c.layout = .file := by
      decide +kernel
    have hundotted : c.Undotted := fun hkey => nomatch (hfile c hc).symm.trans hkey
    exact hspared c hc hundotted "b" hneeds context hissue

end Project

end LocaleAudit
