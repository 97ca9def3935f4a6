import LocaleAudit.Proofs.Rule.Declared
import LocaleAudit.Proofs.Run
import LocaleAudit.Proofs.Source

/-!
# LocaleAudit.Proofs.Rule.Separate

Source files apart from each other.  Whether a locale lacks a key that is used depends on the
catalogs and on the key alone, although catalogs are compared with the keys of all source files at
once; so each source file has the issues that it would have if it were the only one.

* `exists_missingKeys_iff` — what a catalog tells of one key, whatever else is used;
* `missingIssues_eq_alone` — the issues, usage by usage;
* `missing_separate` — the issues of a file in two trees.
-/

namespace LocaleAudit

open Key LocaleAudit.Locale

/-! ## usages apart -/

namespace Rule

/-- A catalog tells that a locale lacks a key, if the key is used. -/
def Tells (c : Catalog) (locale key : String) : Prop :=
  c.finding? (c.pathOf locale key) = some ⟨locale, key, c.pathOf locale key⟩ ∧ Lacks c locale key

/-- **What a catalog tells of a key** does not depend on the other keys that are used. -/
theorem exists_missingKeys_iff {c : Catalog} {used : KeySet} {locale key : String}
    (hlocale : locale ∈ c.locales) (hkey : key ∈ used) :
    (∃ f ∈ c.missingKeys used, f.locale = locale ∧ f.key = key) ↔ Tells c locale key := by
  constructor
  · rintro ⟨⟨l, k, path⟩, hf, rfl, rfl⟩
    obtain ⟨hfinding, -, hapart⟩ := Catalog.mem_missingKeys_iff.1 hf
    obtain rfl : path = c.pathOf l k := Catalog.eq_pathOf_of_finding? hfinding
    exact ⟨hfinding, hapart⟩
  · rintro ⟨hfinding, hlacks⟩
    have hpath : c.pathOf locale key ∈ c.expectedPaths used := by
      cases hlayout : c.layout with
      | file => rwa [Catalog.pathOf, Catalog.expectedPaths, hlayout]
      | key =>
          rw [Catalog.mem_expectedPaths_of_key hlayout, Catalog.pathOf, hlayout]
          exact ⟨locale, hlocale, key, hkey, rfl⟩
    exact ⟨⟨locale, key, c.pathOf locale key⟩,
      Catalog.mem_missingKeys_iff.2 ⟨hfinding, hpath, hlacks⟩, rfl, rfl⟩

theorem allLack_iff_tells {used : KeySet} {catalogs : List Catalog} {locale key : String}
    (hkey : key ∈ used) :
    AllLack used catalogs locale key ↔ ∀ c ∈ catalogs, locale ∈ c.locales → Tells c locale key :=
  forall₂_congr fun _ _ => forall_congr' fun hlocale => exists_missingKeys_iff hlocale hkey

/-- **The issues of a usage** are those that it would have alone. -/
theorem missingIssues_eq_alone (used : UsedKeys) (catalogs : List Catalog) :
    missingIssues used catalogs =
      used.usages.flatMap fun u => missingIssues (.ofUsages [u]) catalogs := by
  rw [missingIssues_eq_flatMap]
  refine List.flatMap_congr fun u hu => ?_
  have hkey : u.key ∈ used.keys := KeySet.mem_ofList.2 (List.mem_map_of_mem hu)
  have hkey' : u.key ∈ (UsedKeys.ofUsages [u]).keys :=
    KeySet.mem_ofList.2 (List.mem_singleton_self _)
  rw [missingIssues_eq_flatMap, UsedKeys.ofUsages, List.flatMap_singleton, ← UsedKeys.ofUsages]
  refine congrArg (List.map _) (List.filter_congr fun l _ => ?_)
  rw [decide_eq_decide, allLack_iff_tells hkey, allLack_iff_tells hkey']

end Rule

/-! ## catalogs alike -/

/-- Catalogs that say the same, whatever their paths. -/
structure Locale.Catalog.Alike (c d : Catalog) : Prop where
  /-- The layout. -/
  layout : c.layout = d.layout
  /-- The messages. -/
  messages : c.messages = d.messages
  /-- The locales. -/
  locales : c.locales = d.locales

/-- Each catalog of one list is like one of the other list. -/
def Locale.AllAlike (cs ds : List Catalog) : Prop :=
  (∀ c ∈ cs, ∃ d ∈ ds, c.Alike d) ∧ ∀ d ∈ ds, ∃ c ∈ cs, c.Alike d

/-- The file that a catalog is loaded from. -/
def Locale.Catalog.file (c : Catalog) : String × Layout × List Char := (c.path, c.layout, c.text)

theorem Locale.Catalog.alike_of_file {c d : Catalog} (h : c.file = d.file) : c.Alike d := by
  obtain ⟨hpath, h⟩ := Prod.mk.inj h
  obtain ⟨hlayout, htext⟩ := Prod.mk.inj h
  have hroot : c.root = d.root :=
    Except.ok.inj (c.parsed.symm.trans ((congrArg Json.parse htext).trans d.parsed))
  have hmessages : c.messages = d.messages := by rw [Catalog.messages, Catalog.messages, hroot]
  refine ⟨hlayout, hmessages, ?_⟩
  rw [Catalog.locales, Catalog.locales, hlayout, hmessages, hpath]

/-- Catalogs of the same files are alike. -/
theorem Locale.allAlike_of_files {cs ds : List Catalog}
    (h : cs.map Catalog.file = ds.map Catalog.file) : AllAlike cs ds := by
  refine ⟨fun c hc => ?_, fun d hd => ?_⟩
  · obtain ⟨d, hd, hfile⟩ := List.mem_map.1 (h ▸ List.mem_map_of_mem hc)
    exact ⟨d, hd, Catalog.alike_of_file hfile.symm⟩
  · obtain ⟨c, hc, hfile⟩ := List.mem_map.1 (h.symm ▸ List.mem_map_of_mem hd)
    exact ⟨c, hc, Catalog.alike_of_file hfile⟩

namespace Rule

theorem tells_congr {c d : Catalog} (h : c.Alike d) {locale key : String} :
    Tells c locale key ↔ Tells d locale key := by
  have hpath : c.pathOf locale key = d.pathOf locale key := by
    rw [Catalog.pathOf, Catalog.pathOf, h.layout]
  have hfinding (path : String) : c.finding? path = d.finding? path := by
    rw [Catalog.finding?, Catalog.finding?, h.layout, h.locales]
  rw [Tells, Tells, Lacks, Lacks, hpath, hfinding, h.messages]

theorem providedLocales_congr {cs ds : List Catalog} (h : AllAlike cs ds) :
    providedLocales cs = providedLocales ds := by
  refine KeySet.eq_of_mem_iff fun l => ?_
  rw [mem_providedLocales, mem_providedLocales]
  constructor
  · rintro ⟨c, hc, hl⟩
    obtain ⟨d, hd, halike⟩ := h.1 c hc
    exact ⟨d, hd, halike.locales ▸ hl⟩
  · rintro ⟨d, hd, hl⟩
    obtain ⟨c, hc, halike⟩ := h.2 d hd
    exact ⟨c, hc, halike.locales ▸ hl⟩

theorem allLack_congr {used : KeySet} {cs ds : List Catalog} (h : AllAlike cs ds)
    {locale key : String} (hkey : key ∈ used) :
    AllLack used cs locale key ↔ AllLack used ds locale key := by
  rw [allLack_iff_tells hkey, allLack_iff_tells hkey]
  constructor
  · intro htells d hd hl
    obtain ⟨c, hc, halike⟩ := h.2 d hd
    exact (tells_congr halike).1 (htells c hc (halike.locales ▸ hl))
  · intro htells c hc hl
    obtain ⟨d, hd, halike⟩ := h.1 c hc
    exact (tells_congr halike).2 (htells d hd (halike.locales ▸ hl))

theorem missingIssues_congr {cs ds : List Catalog} (h : AllAlike cs ds) (used : UsedKeys) :
    missingIssues used cs = missingIssues used ds := by
  rw [missingIssues_eq_flatMap, missingIssues_eq_flatMap, providedLocales_congr h]
  refine List.flatMap_congr fun u hu => congrArg (List.map _) (List.filter_congr fun l _ => ?_)
  have hkey : u.key ∈ used.keys := KeySet.mem_ofList.2 (List.mem_map_of_mem hu)
  rw [decide_eq_decide, allLack_congr h hkey]

end Rule

/-! ## files apart -/

namespace Project

variable {p : Project} {t t₁ t₂ : Entry}

/-- The source files of a project. -/
def sourceFiles (p : Project) (t : Entry) : List Source.ScannedFile :=
  (Source.scan t p.scanOptions).files

/-- The usages in a source file; a file that is malformed has none. -/
def usagesIn (p : Project) (f : Source.ScannedFile) : List Usage :=
  (Source.usagesIn p.config.translationFunctions p.root f).toOption.getD []

/-- The issues of missing keys that a source file has if it is the only one. -/
def missingIn (p : Project) (t : Entry) (f : Source.ScannedFile) : List Issue :=
  Rule.missingIssues (.ofUsages (p.usagesIn f)) (p.library t).catalogs

theorem usages_usedKeys : (p.usedKeys t).usages = (p.sourceFiles t).flatMap p.usagesIn := by
  rw [usedKeys, Source.usedKeys, sourceFiles]
  generalize (Source.scan t p.scanOptions).files = files
  induction files with
  | nil => rfl
  | cons f files ih =>
      simp only [List.map_cons, List.flatMap_cons, List.filterMap_cons] at ih ⊢
      rw [← ih, usagesIn]
      cases h : Source.usagesIn p.config.translationFunctions p.root f with
      | error failure => simp [scanOptions, h, Except.toOption]
      | ok usages => simp [scanOptions, h, Except.toOption]

/-- There are no catalogs with locales if something is wrong with the sources. -/
theorem providedLocales_of_problem? {failure : Failure} (h : p.problem? t = some failure) :
    (Rule.providedLocales (p.library t).catalogs).toList = [] := by
  rw [problem?, Library.problem?] at h
  split at h
  · rename_i hsources
    have hnone : p.sources = [] := List.isEmpty_iff.1 hsources
    rw [library, hnone]
    rfl
  · split at h
    · rename_i hlocales
      rw [Bool.and_eq_true] at hlocales
      exact List.isEmpty_iff.1 hlocales.1
    · contradiction

/-- Something that is wrong with the sources hides no issues of missing keys. -/
theorem issuesOf_missing :
    p.issuesOf t .missing = Rule.missingIssues (p.usedKeys t) (p.library t).catalogs := by
  rw [issuesOf]
  cases hproblem : p.problem? t with
  | none => rfl
  | some failure =>
      rw [Rule.missingIssues_eq_flatMap, providedLocales_of_problem? hproblem]
      simp

/-- **The issues of missing keys** are those of the source files, one file after the other. -/
theorem missing_eq_flatMap (p : Project) (t : Entry) :
    (Run.missing p t {}).1 = (p.sourceFiles t).flatMap (p.missingIn t) := by
  have hrun : (Run.missing p t {}).1 = p.issuesOf t .missing := p.issues_run t .missing
  rw [hrun, issuesOf_missing, Rule.missingIssues_eq_alone, usages_usedKeys, List.flatMap_assoc]
  refine List.flatMap_congr fun f _ => ?_
  rw [missingIn, Rule.missingIssues_eq_alone (.ofUsages (p.usagesIn f)), UsedKeys.ofUsages]

theorem allIn_usagesIn (f : Source.ScannedFile) :
    Usage.AllIn (Path.display p.root f.path) (p.usagesIn f) := by
  rw [usagesIn]
  generalize hresult : Source.usagesIn p.config.translationFunctions p.root f = result
  cases result with
  | error failure => exact Usage.AllIn.nil
  | ok usages => exact Source.allIn_usagesIn hresult

/-- The issues of a source file are in that file. -/
theorem file_of_mem_missingIn {f : Source.ScannedFile} {issue : Issue}
    (h : issue ∈ p.missingIn t f) : issue.file = Path.display p.root f.path := by
  rw [missingIn, Rule.missingIssues_eq_flatMap] at h
  obtain ⟨u, hu, h⟩ := List.mem_flatMap.1 h
  obtain ⟨l, -, rfl⟩ := List.mem_map.1 h
  exact allIn_usagesIn f u hu

/-- The source files that are shown like this. -/
def sourceFilesShown (p : Project) (t : Entry) (shown : String) : List Source.ScannedFile :=
  (p.sourceFiles t).filter fun f => Path.display p.root f.path = shown

theorem missing_filter_file (p : Project) (t : Entry) (shown : String) :
    ((Run.missing p t {}).1.filter fun issue => issue.file = shown) =
      (p.sourceFilesShown t shown).flatMap (p.missingIn t) := by
  rw [missing_eq_flatMap, sourceFilesShown]
  have hfile (f : Source.ScannedFile) :
      (p.missingIn t f).filter (fun issue => issue.file = shown) =
        if Path.display p.root f.path = shown then p.missingIn t f else [] := by
    split
    · rename_i hshown
      refine List.filter_eq_self.2 fun issue hissue => ?_
      rw [file_of_mem_missingIn hissue, decide_eq_true hshown]
    · rename_i hshown
      refine List.filter_eq_nil_iff.2 fun issue hissue => ?_
      rw [file_of_mem_missingIn hissue, decide_eq_false hshown]
      exact Bool.false_ne_true
  induction p.sourceFiles t with
  | nil => rfl
  | cons f files ih =>
      rw [List.flatMap_cons, List.filter_append, ih, hfile, List.filter_cons]
      split
      · rename_i hshown
        rw [if_pos (decide_eq_true hshown), List.flatMap_cons]
      · rename_i hshown
        rw [if_neg (by rw [decide_eq_false hshown]; exact Bool.false_ne_true), List.nil_append]

/-- **Source files do not interfere**: in two trees with the same catalogs, a source file has the
same issues of missing keys whatever else is scanned, and if the same files are shown in one way in
both trees, the issues that are told of these files are the same in the same order. -/
theorem missing_separate (p : Project) {t₁ t₂ : Entry}
    (hcatalogs : AllAlike (p.library t₁).catalogs (p.library t₂).catalogs) :
    (∀ t, (Run.missing p t {}).1 = (p.sourceFiles t).flatMap (p.missingIn t)) ∧
      (∀ f, p.missingIn t₁ f = p.missingIn t₂ f) ∧
      ∀ shown, p.sourceFilesShown t₁ shown = p.sourceFilesShown t₂ shown →
        ((Run.missing p t₁ {}).1.filter fun issue => issue.file = shown) =
          (Run.missing p t₂ {}).1.filter fun issue => issue.file = shown := by
  have hsame (f : Source.ScannedFile) : p.missingIn t₁ f = p.missingIn t₂ f :=
    Rule.missingIssues_congr hcatalogs _
  refine ⟨missing_eq_flatMap p, hsame, fun shown hfiles => ?_⟩
  rw [missing_filter_file, missing_filter_file, hfiles]
  exact List.flatMap_congr fun f _ => hsame f

/-- A project with one catalog. -/
def scanningProject : Project := ⟨".", { src := "src" }, none, [⟨"en.json", .file⟩]⟩

/-- A tree with the given source files. -/
def treeWith (files : List (String × String)) : Entry :=
  .directory [("en.json", .file (.text "\x7b\x7d".toList)),
    ("src", .directory (files.map fun (name, text) => (name, .file (.text text.toList))))]

/-- A file has its issue next to a file that uses a key below its own, and next to one that is
malformed. -/
theorem missing_separate_malformed :
    let alone := treeWith [("a.js", "t('k')")]
    let among := treeWith [("a.js", "t('k')"), ("b.js", "t('k.l')"), ("c.js", "t(")]
    AllAlike (scanningProject.library alone).catalogs (scanningProject.library among).catalogs ∧
      scanningProject.sourceFilesShown alone "src/a.js" =
        scanningProject.sourceFilesShown among "src/a.js" ∧
      .missingKey ⟨"src/a.js", ⟨1, 1⟩, "t('k')"⟩ "k" "en" ∈
        ((Run.missing scanningProject among {}).1.filter
          fun issue => issue.file = "src/a.js") := by
  intro alone among
  have hcatalogs : AllAlike (scanningProject.library alone).catalogs
      (scanningProject.library among).catalogs := allAlike_of_files (by decide +kernel)
  have hfiles : scanningProject.sourceFilesShown alone "src/a.js" =
      scanningProject.sourceFilesShown among "src/a.js" := by decide +kernel
  refine ⟨hcatalogs, hfiles, ?_⟩
  rw [← (missing_separate scanningProject hcatalogs).2.2 "src/a.js" hfiles]
  decide +kernel

end Project

end LocaleAudit
