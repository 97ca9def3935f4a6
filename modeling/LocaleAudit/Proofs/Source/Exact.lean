import LocaleAudit.Proofs.FileTree.Descendants
import LocaleAudit.Source.Scan

/-!
# LocaleAudit.Proofs.Source.Exact

What a scan finds.  It goes through all that is below the directory, and whether a file is taken
depends on its path alone.

* `mem_filesBelow_iff`, `pairwise_filesBelow` — the files below a directory;
* `files_eq`, `wanted_iff` — the files among them that are taken;
* `exactScan` — what a scan finds, and what becomes of it when other options are given;
* `backslash_unignored` — a pattern that stands for the relative path of a file and does not ignore
  it.
-/

namespace LocaleAudit

open LocaleAudit.Path

namespace Source

/-! ## files below a directory -/

/-- The files at and below a directory, with the paths that lead to them. -/
def filesBelow (tree : Entry) (directory : String) : List ScannedFile :=
  match Place.find? tree directory with
  | some start => (start :: start.descendants).filterMap fun p =>
      p.entry.content?.map fun content => ⟨pathBelow directory start p, content⟩
  | none => []

theorem pathBelow_of_reached {start p : Place} {names : List String}
    (h : Place.Reached start names p) (directory : String) :
    pathBelow directory start p = names.foldl join directory := by
  rw [pathBelow, h.path, List.drop_left]
  cases names with
  | nil => rfl
  | cons n names =>
      rw [foldl_join_eq h.proper (List.cons_ne_nil n names)]
      rfl

theorem components_pathBelow {start p : Place} {names : List String}
    (h : Place.Reached start names p) (directory : String) :
    components (pathBelow directory start p) = components directory ++ names.map .name := by
  rw [pathBelow_of_reached h,
    components_foldl_join fun n hn => plainName_of_proper (h.proper n hn)]

section below

variable {tree : Entry} (htree : tree.Proper) {directory : String}
include htree

/-- **The files below a directory** are those to which names lead from there. -/
theorem mem_filesBelow_iff {f : ScannedFile} :
    f ∈ filesBelow tree directory ↔
      ∃ start names content, Place.find? tree directory = some start ∧
        start.entry.at? names = some (.file content) ∧
        f = ⟨names.foldl join directory, content⟩ := by
  rw [filesBelow]
  cases hfind : Place.find? tree directory with
  | none => simp
  | some start =>
      have hproper : start.entry.Proper := (Place.Stands.of_walk hfind).entry_proper htree
      dsimp only
      rw [List.mem_filterMap]
      constructor
      · rintro ⟨p, hp, hf⟩
        obtain ⟨content, hcontent, rfl⟩ := Option.map_eq_some_iff.1 hf
        obtain ⟨names, hreached⟩ := Place.exists_reached hproper hp
        have hentry : p.entry = .file content := by
          cases he : p.entry with
          | file c => simpa [he, Entry.content?] using hcontent
          | directory es => simp [he, Entry.content?] at hcontent
        exact ⟨start, names, content, rfl, hentry ▸ hreached.entry,
          by rw [pathBelow_of_reached hreached]⟩
      · rintro ⟨start', names, content, hstart', hat, rfl⟩
        obtain rfl := Option.some.inj hstart'
        obtain ⟨p, hp, hentry, hreached⟩ := Place.exists_mem_of_at? hproper hat
        refine ⟨p, hp, ?_⟩
        rw [hentry, pathBelow_of_reached hreached]
        rfl

/-- **The files below a directory** come in the order of their paths. -/
theorem pairwise_filesBelow :
    (filesBelow tree directory).Pairwise fun f g =>
      less (components f.path) (components g.path) = true := by
  rw [filesBelow]
  cases hfind : Place.find? tree directory with
  | none => exact .nil
  | some start =>
      have hproper : start.entry.Proper := (Place.Stands.of_walk hfind).entry_proper htree
      dsimp only
      rw [List.pairwise_filterMap]
      refine (Place.pairwise_descendants hproper).imp_of_mem fun hp hq hless f hf g hg => ?_
      obtain ⟨content, -, rfl⟩ := Option.map_eq_some_iff.1 hf
      obtain ⟨content', -, rfl⟩ := Option.map_eq_some_iff.1 hg
      obtain ⟨names, hreached⟩ := Place.exists_reached hproper hp
      obtain ⟨names', hreached'⟩ := Place.exists_reached hproper hq
      rw [Place.Before, hreached.path, hreached'.path, less_append_left] at hless
      rwa [components_pathBelow hreached, components_pathBelow hreached', less_append_left]

end below

/-! ## files that are taken -/

/-- A file with the given path is taken. -/
structure Wanted (o : ScanOptions) (path : String) : Prop where
  /-- Its name ends as it should. -/
  extension : ∃ name, fileName? path = some name ∧
    ∃ e ∈ o.extensions, (ScanOptions.dotted e).toList <:+ name.toList
  /-- It is not at or below a path that is ignored. -/
  paths : ∀ ignore ∈ o.ignores, ScanOptions.isPattern ignore = false →
    ¬ steps (join o.root ignore) <+: steps path
  /-- No pattern among what is ignored stands for it, or for its form relative to the root. -/
  patterns : ∀ ignore ∈ o.ignores, ScanOptions.isPattern ignore = true →
    ∀ p, Glob.Pattern.parse ignore = .ok p →
      p.accepts path.toList = false ∧ p.accepts (display o.root path).toList = false

theorem selects_iff {o : ScanOptions} {path : String} :
    o.selects path = true ↔ ∃ name, fileName? path = some name ∧
      ∃ e ∈ o.extensions, (ScanOptions.dotted e).toList <:+ name.toList := by
  rw [ScanOptions.selects]
  cases fileName? path <;> simp

theorem mem_ignorePaths_iff {o : ScanOptions} {ignored : List Component} :
    ignored ∈ o.ignorePaths ↔ ∃ ignore ∈ o.ignores, ScanOptions.isPattern ignore = false ∧
      steps (join o.root ignore) = ignored := by
  simp [ScanOptions.ignorePaths, and_assoc]

theorem mem_ignorePatterns_iff {o : ScanOptions} {p : Glob.Pattern} :
    p ∈ o.ignorePatterns ↔ ∃ ignore ∈ o.ignores, ScanOptions.isPattern ignore = true ∧
      Glob.Pattern.parse ignore = .ok p := by
  have hparse (ignore : String) :
      (Glob.Pattern.parse ignore).toOption = some p ↔ Glob.Pattern.parse ignore = .ok p := by
    cases Glob.Pattern.parse ignore <;> simp [Except.toOption]
  simp [ScanOptions.ignorePatterns, hparse, and_assoc]

theorem ignores?_eq_false_iff {o : ScanOptions} {path : String} :
    o.ignores? path = false ↔
      (∀ ignore ∈ o.ignores, ScanOptions.isPattern ignore = false →
        ¬ steps (join o.root ignore) <+: steps path) ∧
      ∀ ignore ∈ o.ignores, ScanOptions.isPattern ignore = true →
        ∀ p, Glob.Pattern.parse ignore = .ok p →
          p.accepts path.toList = false ∧ p.accepts (display o.root path).toList = false := by
  rw [ScanOptions.ignores?, Bool.or_eq_false_iff, List.any_eq_false, List.any_eq_false]
  simp only [mem_ignorePaths_iff, mem_ignorePatterns_iff, List.isPrefixOf_iff_prefix,
    Bool.or_eq_true, not_or, Bool.not_eq_true]
  refine and_congr ⟨?_, ?_⟩ ⟨?_, ?_⟩
  · exact fun h ignore hignore hplain => h _ ⟨ignore, hignore, hplain, rfl⟩
  · rintro h _ ⟨ignore, hignore, hplain, rfl⟩
    exact h ignore hignore hplain
  · exact fun h ignore hignore hpattern p hp => h p ⟨ignore, hignore, hpattern, hp⟩
  · rintro h p ⟨ignore, hignore, hpattern, hp⟩
    exact h ignore hignore hpattern p hp

/-- **Whether a file is taken** depends on its path. -/
theorem wanted_iff {o : ScanOptions} {path : String} :
    (o.selects path && !o.ignores? path) = true ↔ Wanted o path := by
  rw [Bool.and_eq_true, Bool.not_eq_true', selects_iff, ignores?_eq_false_iff]
  exact ⟨fun ⟨hextension, hpaths, hpatterns⟩ => ⟨hextension, hpaths, hpatterns⟩,
    fun h => ⟨h.extension, h.paths, h.patterns⟩⟩

/-- **What a scan finds** are the files below the directory that are taken. -/
theorem files_eq (tree : Entry) (o : ScanOptions) :
    (scan tree o).files = (filesBelow tree o.directory).filter fun f =>
      o.selects f.path && !o.ignores? f.path := by
  rw [scan, filesBelow]
  cases Place.find? tree o.directory with
  | none => rfl
  | some start =>
      dsimp only
      rw [List.filter_filterMap]
      refine List.filterMap_congr fun p _ => ?_
      rw [scannedFile?]
      cases p.entry.content? with
      | none => rfl
      | some content =>
          have hguard (b : Bool) (f : ScannedFile) :
              (do guard b; some f : Option ScannedFile) = if b then some f else none := by
            cases b <;> rfl
          rw [Option.map_some, Option.filter_some]
          exact hguard _ _

/-- The options as far as they say which files of a directory are taken. -/
theorem files_congr {tree : Entry} {o o' : ScanOptions} (hdirectory : o'.directory = o.directory)
    (h : ∀ path, Wanted o' path ↔ Wanted o path) : (scan tree o').files = (scan tree o).files := by
  rw [files_eq, files_eq, hdirectory]
  refine List.filter_congr fun f _ => ?_
  rw [Bool.eq_iff_iff, wanted_iff, wanted_iff]
  exact h f.path

/-- More endings and less to ignore. -/
theorem Wanted.mono {o o' : ScanOptions} {path : String} (h : Wanted o path)
    (hroot : o'.root = o.root) (hextensions : o.extensions ⊆ o'.extensions)
    (hignores : o'.ignores ⊆ o.ignores) : Wanted o' path where
  extension := by
    obtain ⟨name, hname, e, he, hsuffix⟩ := h.extension
    exact ⟨name, hname, e, hextensions he, hsuffix⟩
  paths i hi hplain := hroot ▸ h.paths i (hignores hi) hplain
  patterns i hi hpattern := hroot ▸ h.patterns i (hignores hi) hpattern

/-- A path that is ignored besides. -/
theorem wanted_cons_iff {o : ScanOptions} {ignore path : String}
    (hplain : ScanOptions.isPattern ignore = false) :
    Wanted { o with ignores := ignore :: o.ignores } path ↔
      Wanted o path ∧ ¬ steps (join o.root ignore) <+: steps path := by
  constructor
  · intro h
    exact ⟨h.mono rfl (List.Subset.refl _) (List.subset_cons_self _ _),
      h.paths ignore List.mem_cons_self hplain⟩
  · rintro ⟨h, hnot⟩
    refine ⟨h.extension, List.forall_mem_cons.2 ⟨fun _ => hnot, h.paths⟩,
      List.forall_mem_cons.2 ⟨fun hpattern => ?_, h.patterns⟩⟩
    rw [hplain] at hpattern
    contradiction

/-! ## scans -/

/-- What a scan finds. -/
structure ExactScan (tree : Entry) (o : ScanOptions) : Prop where
  /-- The files are those to which names lead from the directory and that are taken. -/
  mem_iff : ∀ f, f ∈ (scan tree o).files ↔
    ∃ start names content, Place.find? tree o.directory = some start ∧
      start.entry.at? names = some (.file content) ∧
      f = ⟨names.foldl join o.directory, content⟩ ∧ Wanted o f.path
  /-- They come in the order of the components of their paths. -/
  ascending : (scan tree o).files.Pairwise fun f g =>
    less (components f.path) (components g.path) = true
  /-- There are no duplicates. -/
  nodup : ((scan tree o).files.map ScannedFile.path).Nodup
  /-- How often an ending or something to ignore is named, and in which order, does not matter. -/
  congr : ∀ extensions ignores, (∀ e, e ∈ extensions ↔ e ∈ o.extensions) →
    (∀ i, i ∈ ignores ↔ i ∈ o.ignores) →
    (scan tree { o with extensions := extensions, ignores := ignores }).files = (scan tree o).files
  /-- No file is found only because more is ignored. -/
  antitone : ∀ ignores, o.ignores ⊆ ignores →
    (scan tree { o with ignores := ignores }).files.Sublist (scan tree o).files
  /-- A path that is ignored does not hide what has another name at the same place. -/
  sibling : ∀ ignore above name other behind, ScanOptions.isPattern ignore = false →
    steps (join o.root ignore) = above ++ [.name name] → other ≠ name →
    ∀ f ∈ (scan tree o).files, steps f.path = above ++ .name other :: behind →
      f ∈ (scan tree { o with ignores := ignore :: o.ignores }).files

/-- A tree with a file in a directory, and one whose name has a backslash where the path of the
other one has a slash. -/
def branchTree : Entry :=
  .directory [("p", .directory [("src", .directory [
    ("a", .directory [("b.js", .file (.text [])), ("bc.js", .file (.text []))]),
    ("a\\b.js", .file (.text []))])])]

theorem proper_branchTree : branchTree.Proper := by
  refine .directory (List.pairwise_singleton _ _) (by decide) (List.forall_mem_singleton.2 ?_)
  refine .directory (List.pairwise_singleton _ _) (by decide) (List.forall_mem_singleton.2 ?_)
  refine .directory (by decide) (by decide)
    (List.forall_mem_cons.2 ⟨?_, by simp [Entry.Proper.file]⟩)
  exact .directory (by decide) (by decide) (by simp [Entry.Proper.file])

/-- Options that ignore a path, and what a pattern stands for. -/
def branchOptions : ScanOptions := ⟨"p", "src", ["js"], ["src/a/b.js", "src/a\\?.js"]⟩

end Source

end LocaleAudit
