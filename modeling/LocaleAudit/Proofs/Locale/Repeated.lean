import LocaleAudit.Config.Basic
import LocaleAudit.Proofs.Locale.Expected
import LocaleAudit.Proofs.Locale.Files

/-!
# LocaleAudit.Proofs.Locale.Repeated

Files that are loaded more than once.  Paths are told apart by their normal forms, and two of these
may lead to one file: then the file has a catalog for each.  Nothing of that kind happens where all
sources are relative and nothing stands for two dots behind their start.

* `load_per_path` — a file has a catalog for each path that the sources find it by;
* `loaded_twice` — a file that two sources find by different paths.
-/

namespace LocaleAudit.Locale

open LocaleAudit.Path Place Entry

/-- Where the file of a catalog is, in names from the tree on. -/
def Catalog.location? (c : Catalog) : Option (List String) := locationOf (components c.path)

variable {tree : Entry} {root : String} {sources : List Source}

/-! ## where catalogs come from -/

/-- A candidate gives a catalog of the place where it is itself, with its path. -/
theorem location?_of_load (htree : tree.Proper) {d : Candidate}
    (hd : d ∈ candidates tree root sources) {c : Catalog} (hload : d.load root = .ok c)
    (names : List String) : d.path? = some c.path ∧ (c.location? = some names ↔ d.IsAt names) := by
  obtain ⟨s, -, place, hplace, rfl, -, hpath⟩ := exists_file_of_load htree hd hload
  have hlocation : c.location? = place.location? := by
    rw [Catalog.location?, hpath, components_pathText htree (stands_of_mem_files htree hplace)]
    rfl
  rw [hpath, hlocation]
  exact ⟨rfl, .rfl⟩

/-- **A catalog comes from a file** of the tree. -/
theorem exists_at?_of_mem_catalogs (htree : tree.Proper) {c : Catalog}
    (hc : c ∈ (Library.load tree root sources).catalogs) :
    ∃ names, c.location? = some names ∧ tree.at? names = some (.file (.text c.text)) := by
  obtain ⟨d, hd, hload⟩ := mem_catalogs_iff.1 hc
  obtain ⟨s, -, place, hplace, rfl, hentry, -⟩ := exists_file_of_load htree hd hload
  have hstands := stands_of_mem_files htree hplace
  cases hlocation : place.location? with
  | none =>
      rw [hstands.entry_of_outside hlocation] at hentry
      contradiction
  | some names =>
      refine ⟨names, ((location?_of_load htree hd hload names).2).2 hlocation, ?_⟩
      rw [hstands.at? hlocation, hentry]

/-- A candidate at a well-formed file gives a catalog. -/
theorem exists_load_of_isAt (htree : tree.Proper) {names : List String} {text : List Char}
    {node : Json.Node} (hfile : tree.at? names = some (.file (.text text)))
    (hparse : Json.parse text = .ok node) {d : Candidate} (hd : d ∈ candidates tree root sources)
    (hat : d.IsAt names) : ∃ c, d.load root = .ok c := by
  rcases cases_of_mem_candidates hd with ⟨s, -, place, hplace, rfl⟩ | ⟨_, rfl⟩
  · have hentry := (stands_of_mem_files htree hplace).at? hat
    rw [hfile] at hentry
    have hloads := loadsAs_load htree hplace s.layout
    cases houtcome : (Candidate.found s.layout place).load root with
    | ok c => exact ⟨c, rfl⟩
    | error failure =>
        rw [houtcome] at hloads
        cases hloads with
        | malformed hentry' hparse' =>
            rw [hentry'] at hentry
            cases hentry
            rw [hparse] at hparse'
            contradiction
        | notText hentry' =>
            rw [hentry'] at hentry
            cases hentry
        | unreadable hentry' =>
            rw [hentry'] at hentry
            cases hentry
  · contradiction

/-- What is found by a source that does not lead out of the tree is inside. -/
theorem exists_location_of_mem_files {s : Source} (h : s.StaysInside root) {place : Place}
    (hplace : place ∈ s.files tree root) : ∃ names, place.location? = some names := by
  rw [Source.files] at hplace
  split at hplace
  · rename_i places hplaces
    have hinside : ∀ qs, Glob.componentPatterns (resolve root s.pattern) = .ok qs →
        (Glob.leastDepth? 0 qs).isSome = true := fun qs hqs => h.2 qs (by rw [hqs]; rfl)
    exact Glob.exists_location_of_find hplaces hinside (List.mem_filter.1 hplace).1
  · contradiction

/-- **The catalogs of a well-formed file** have the paths that the sources find it by. -/
theorem map_path_catalogs_at (htree : tree.Proper) {names : List String} {text : List Char}
    {node : Json.Node} (hfile : tree.at? names = some (.file (.text text)))
    (hparse : Json.parse text = .ok node) :
    ((Library.load tree root sources).catalogs.filter (·.location? = some names)).map (·.path) =
      pathsTo tree root sources names := by
  rw [Library.load, ← candidates, pathsTo]
  dsimp only
  rw [List.filterMap_map, List.filter_filterMap, List.map_filterMap, List.filterMap_filter]
  refine List.filterMap_congr fun d hd => ?_
  rw [Function.comp_apply]
  cases hload : d.load root with
  | error failure =>
      have hnot : ¬ d.IsAt names := fun hat => by
        obtain ⟨c, hc⟩ := exists_load_of_isAt htree hfile hparse hd hat
        rw [hload] at hc
        contradiction
      simp [Except.toOption, hnot]
  | ok c =>
      obtain ⟨hpath, hlocation⟩ := location?_of_load htree hd hload names
      by_cases hat : d.IsAt names
      · simp [Except.toOption, Option.filter, hlocation.2 hat, hat, hpath]
      · have hne := hlocation.not.2 hat
        simp [Except.toOption, Option.filter, hne, hat]

/-! ## files that are found by one path -/

/-- The catalogs of a file have one path if all sources are relative and nothing stands for two dots
behind where they start. -/
theorem path_eq_of_location?_eq (htree : tree.Proper) (h : AllAnchored root sources)
    {c c' : Catalog} (hc : c ∈ (Library.load tree root sources).catalogs)
    (hc' : c' ∈ (Library.load tree root sources).catalogs) (hsame : c.location? = c'.location?) :
    c.path = c'.path := by
  obtain ⟨names, hlocation, -⟩ := exists_at?_of_mem_catalogs htree hc
  have hmem {c : Catalog} (hc : c ∈ (Library.load tree root sources).catalogs)
      (hlocation : c.location? = some names) : c.path ∈ pathsTo tree root sources names := by
    obtain ⟨d, hd, hload⟩ := mem_catalogs_iff.1 hc
    obtain ⟨hpath, hat⟩ := location?_of_load htree hd hload names
    have hfilter : d ∈ (candidates tree root sources).filter (·.IsAt names) :=
      List.mem_filter.2 ⟨hd, decide_eq_true (hat.1 hlocation)⟩
    exact List.mem_filterMap.2 ⟨d, hfilter, hpath⟩
  have hone : (pathsTo tree root sources names).length ≤ 1 := length_pathsTo_le_one h names
  obtain ⟨path, hpaths⟩ := List.length_eq_one_iff.1
    (Nat.le_antisymm hone (List.length_pos_of_mem (hmem hc hlocation)))
  have hpath := hmem hc hlocation
  have hpath' := hmem hc' (hsame ▸ hlocation)
  rw [hpaths, List.mem_singleton] at hpath hpath'
  exact hpath.trans hpath'.symm

/-- **A file has a catalog for each path** that the sources find it by, as long as none of them
leads out of the tree, and each of its findings is told as often.  That is once, if all sources are
relative and nothing stands for two dots behind where they start. -/
theorem load_per_path {tree : Entry} (htree : tree.Proper) (root : String)
    (sources : List Source) :
    let l := Library.load tree root sources
    (∀ c ∈ l.catalogs, ∃ names, c.location? = some names ∧
      tree.at? names = some (.file (.text c.text))) ∧
    (AllInside root sources →
      (∀ s ∈ sources, ∀ place ∈ s.files tree root, ∃ names, place.location? = some names) ∧
      ∀ names text node, tree.at? names = some (.file (.text text)) → Json.parse text = .ok node →
        (l.catalogs.filter (·.location? = some names)).map (·.path) =
          pathsTo tree root sources names) ∧
    (AllAnchored root sources →
      (l.catalogs.map (·.location?)).Nodup ∧
        ∀ expected, (l.catalogs.flatMap fun c =>
          (c.unusedKeys expected).map (c.location?, ·)).Nodup) := by
  intro l
  refine ⟨fun c hc => exists_at?_of_mem_catalogs htree hc,
    fun h => ⟨fun s hs place hplace => exists_location_of_mem_files (h s hs) hplace,
      fun names text node hfile hparse => map_path_catalogs_at htree hfile hparse⟩,
    fun h => ?_⟩
  have hpaths : l.catalogs.Pairwise fun c c' => c.path ≠ c'.path :=
    List.pairwise_map.1 (nodup_paths_catalogs htree)
  have hlocations : l.catalogs.Pairwise fun c c' => c.location? ≠ c'.location? :=
    hpaths.imp_of_mem fun hc hc' hne hsame => hne (path_eq_of_location?_eq htree h hc hc' hsame)
  refine ⟨List.pairwise_map.2 hlocations, fun expected => List.nodup_flatMap.2 ⟨fun c _ => ?_, ?_⟩⟩
  · exact (c.nodup_unusedKeys expected).map fun _ _ heq => (Prod.mk.inj heq).2
  · refine hlocations.imp fun hne => List.disjoint_left.2 fun x hx hx' => ?_
    obtain ⟨f, -, rfl⟩ := List.mem_map.1 hx
    obtain ⟨f', -, heq⟩ := List.mem_map.1 hx'
    exact hne (Prod.mk.inj heq).1.symm

/-- A file that both sources stand for has one catalog, as nothing stands for two dots. -/
theorem load_per_path_mixed :
    let l := Library.load mixedTree "." mixedSources
    mixedTree.Proper ∧ AllInside "." mixedSources ∧ AllAnchored "." mixedSources ∧
      (l.catalogs.map (·.location?)).Nodup ∧
      (l.catalogs.filter (·.location? = some ["locales", "all.json"])).map (·.path) =
        ["locales/all.json"] := by
  intro l
  have hroot : ∀ c ∈ ".".toList, Glob.Plain c :=
    List.forall_mem_singleton.2 (by decide : Glob.Plain '.')
  have hanchored : AllAnchored "." mixedSources :=
    allAnchored_of_not_climbs hroot (by decide +kernel) (by decide +kernel)
  have hinside : AllInside "." mixedSources := by decide +kernel
  obtain ⟨-, hpath, honce⟩ := load_per_path proper_mixedTree "." mixedSources
  have hpaths : pathsTo mixedTree "." mixedSources ["locales", "all.json"] =
      ["locales/all.json"] := by decide +kernel
  refine ⟨proper_mixedTree, hinside, hanchored, (honce hanchored).1, ?_⟩
  exact ((hpath hinside).2 ["locales", "all.json"] _ _ rfl rfl).trans hpaths

/-- A tree with a locale and a directory without files. -/
def roundaboutTree : Entry :=
  .directory [("en.json", .file (.text "\x7b\"a\":1\x7d".toList)), ("sub", .directory [])]

/-- Sources that find the locale directly and by way of the directory. -/
def roundaboutSources : List Source := [⟨"*.json", .file⟩, ⟨"sub/../*.json", .file⟩]

/-- A file that two sources find by different paths is loaded twice, and its one unused key is told
twice. -/
theorem loaded_twice :
    let l := Library.load roundaboutTree "." roundaboutSources
    Config.badPattern? "localeDir" (roundaboutSources.map (·.pattern)) = none ∧
      l.catalogs.map (fun c => (c.path, c.location?)) =
        [("en.json", some ["en.json"]), ("sub/../en.json", some ["en.json"])] ∧
      ¬ (l.catalogs.map (·.location?)).Nodup ∧
      (l.catalogs.flatMap fun c => (c.unusedKeys .empty).map (c.location?, ·)) =
        [(some ["en.json"], ⟨"en", "a", "a"⟩), (some ["en.json"], ⟨"en", "a", "a"⟩)] := by
  intro l
  have hpaths : l.catalogs.map (fun c => (c.path, c.location?)) =
      [("en.json", some ["en.json"]), ("sub/../en.json", some ["en.json"])] := by decide +kernel
  have htold : (l.catalogs.flatMap fun c => (c.unusedKeys .empty).map (c.location?, ·)) =
      [(some ["en.json"], ⟨"en", "a", "a"⟩), (some ["en.json"], ⟨"en", "a", "a"⟩)] := by
    decide +kernel
  exact ⟨by decide +kernel, hpaths, by decide +kernel, htold⟩

end LocaleAudit.Locale
