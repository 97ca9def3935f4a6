import LocaleAudit.Proofs.Locale.Load
import Mathlib.Data.List.Forall2
import Mathlib.Data.List.Nodup

/-!
# LocaleAudit.Proofs.Locale.Files

The files that are loaded.  Each path by which a source finds a file is taken once, and the file
gives a catalog or a failure; so catalogs are told apart by their paths, and looked up by them.

* `Candidate.filterMap_path?_firsts`, `exists_first_of_mem_candidates` — which paths are taken, and
  from which source;
* `LoadsAs`, `loadsAs_load` — what a file is loaded as;
* `load_partition` — all files of a library, in order;
* `find?_load` — catalogs by their paths.
-/

namespace LocaleAudit.Locale

open LocaleAudit.Path Place Entry

/-! ## paths that are taken -/

namespace Candidate

/-- **The paths that are taken** are all paths but those that have been seen, each where it comes
first. -/
theorem filterMap_path?_firsts (seen : List String) (cs : List Candidate) :
    (firsts seen cs).filterMap path? =
      ((cs.filterMap path?).filter fun path => !seen.contains path).eraseDups := by
  induction cs generalizing seen with
  | nil => rfl
  | cons c cs ih =>
      rw [firsts]
      cases hpath : c.path? with
      | none => simp only [List.filterMap_cons, hpath, ih]
      | some path =>
          cases hseen : seen.contains path with
          | true =>
              simp only [List.filterMap_cons, hpath, hseen, if_true, Bool.not_true,
                List.filter_cons, Bool.false_eq_true, if_false, ih]
          | false =>
            have hrest : ((cs.filterMap path?).filter fun p => !(path :: seen).contains p) =
                ((cs.filterMap path?).filter fun p => !seen.contains p).filter
                  fun p => !p == path := by
              rw [List.filter_filter]
              refine List.filter_congr fun p _ => ?_
              rw [List.contains_cons, Bool.not_or]
            simp only [List.filterMap_cons, hpath, hseen, Bool.false_eq_true, if_false,
              Bool.not_false, List.filter_cons, if_true, List.eraseDups_cons, ih, hrest]

/-- A candidate that is taken is the first one with its path. -/
theorem find?_eq_some_of_mem_firsts {seen : List String} {cs : List Candidate} {c : Candidate}
    {path : String} (h : c ∈ firsts seen cs) (hpath : c.path? = some path) :
    cs.find? (·.path? = some path) = some c := by
  induction cs generalizing seen with
  | nil => contradiction
  | cons d ds ih =>
      have hnew : path ∉ seen :=
        (nodup_paths_firsts seen (d :: ds)).2 path (List.mem_filterMap.2 ⟨c, h, hpath⟩)
      rw [firsts] at h
      split at h
      · rename_i hnone
        rcases List.mem_cons.1 h with rfl | h
        · rw [hnone] at hpath
          contradiction
        · rw [List.find?_cons_of_neg (by simp [hnone]), ih h]
      · rename_i path' hpath'
        split at h
        · rename_i hseen
          have hne : path' ≠ path := by
            rintro rfl
            exact hnew (List.contains_iff_mem.1 hseen)
          rw [List.find?_cons_of_neg (by simpa [hpath'] using hne), ih h]
        · rcases List.mem_cons.1 h with rfl | h
          · exact List.find?_cons_of_pos (by simp [hpath])
          · have hnew' := (nodup_paths_firsts (path' :: seen) ds).2 path
              (List.mem_filterMap.2 ⟨c, h, hpath⟩)
            have hne : path' ≠ path := fun heq => hnew' (heq ▸ List.mem_cons_self)
            rw [List.find?_cons_of_neg (by simpa [hpath'] using hne), ih h]

end Candidate

/-! ## files -/

/-- The files that a source stands for. -/
def Source.files (tree : Entry) (root : String) (s : Source) : List Place :=
  match Glob.find tree (resolve root s.pattern) with
  | .ok places => places.filter fun p => !p.isDirectory
  | .error _ => []

/-- The paths of the files that a source stands for. -/
def Source.paths (tree : Entry) (root : String) (s : Source) : List String :=
  (s.files tree root).map (·.pathText)

/-- What a file is loaded as: a catalog, or else a failure of the file, which tells why not: it is
not well-formed, or not text, or it cannot be read. -/
inductive LoadsAs (root : String) (layout : Layout) (place : Place) : Except Failure Catalog → Prop
  | catalog (c : Catalog) (hentry : place.entry = .file (.text c.text))
      (hpath : c.path = place.pathText) (hshown : c.shown = display root place.pathText)
      (hlayout : c.layout = layout) : LoadsAs root layout place (.ok c)
  | malformed {text : List Char} {fault : Json.Fault} (hentry : place.entry = .file (.text text))
      (hparse : Json.parse text = .error fault) :
      LoadsAs root layout place
        (.error (.parse (display root place.pathText) (fault.message text)))
  | notText (hentry : place.entry = .file .binary) :
      LoadsAs root layout place
        (.error (.parse (display root place.pathText) Failure.notText))
  | unreadable {reason : String} (hentry : place.entry = .file (.unreadable reason)) :
      LoadsAs root layout place (.error (.parse (display root place.pathText) reason))

variable {tree : Entry} {root : String} {s : Source} {layout : Layout} {place : Place}

theorem exists_ofText_of_ok (path shown : String) (layout : Layout) {text : List Char}
    {node : Json.Node} (h : Json.parse text = .ok node) :
    ∃ c, Catalog.ofText path shown layout text = .ok c ∧ c.path = normalize path ∧
      c.shown = shown ∧ c.layout = layout ∧ c.text = text := by
  unfold Catalog.ofText
  split
  · exact ⟨_, rfl, rfl, rfl, rfl, rfl⟩
  · rename_i fault hfault
    rw [h] at hfault
    contradiction

/-! ## what files are loaded as -/

theorem isDirectory_of_mem_files (h : place ∈ s.files tree root) : place.isDirectory = false := by
  rw [Source.files] at h
  split at h
  · simpa using (List.mem_filter.1 h).2
  · contradiction

theorem stands_of_mem_files (htree : tree.Proper) (h : place ∈ s.files tree root) :
    Place.Stands tree place := by
  rw [Source.files] at h
  split at h
  · rename_i places hplaces
    exact Glob.stands_of_find htree hplaces place (List.mem_filter.1 h).1
  · contradiction

theorem exists_name_of_mem_files (htree : tree.Proper) (h : place ∈ s.files tree root) :
    ∃ above name, place.path = above ++ [.name name] := by
  have hfile := isDirectory_of_mem_files h
  rw [Source.files] at h
  split at h
  · rename_i places hplaces
    exact Glob.exists_name_of_find htree hplaces (List.mem_filter.1 h).1 hfile
  · contradiction

/-- **What a file is loaded as.** -/
theorem loadsAs_load (htree : tree.Proper) (h : place ∈ s.files tree root) (layout : Layout) :
    LoadsAs root layout place ((Candidate.found layout place).load root) := by
  have hplace := stands_of_mem_files htree h
  have hfile := isDirectory_of_mem_files h
  rw [Place.isDirectory] at hfile
  cases hentry : place.entry with
  | directory es =>
      rw [hentry] at hfile
      contradiction
  | file content =>
      rw [Candidate.load, hentry]
      cases content with
      | binary => exact .notText hentry
      | unreadable reason => exact .unreadable hentry
      | text text =>
          dsimp only [Entry.read, content?, Content.read]
          cases hparse : Json.parse text with
          | ok node =>
              obtain ⟨c, hc, hpath, hshown, hlayout, rfl⟩ :=
                exists_ofText_of_ok place.pathText (display root place.pathText) layout hparse
              rw [normalize_pathText htree hplace] at hpath
              rw [hc]
              exact .catalog c hentry hpath hshown hlayout
          | error fault =>
              rw [ofText_of_error hparse]
              exact .malformed hentry hparse

namespace Candidate

theorem ofSource_of_ok {places : List Place}
    (h : Glob.find tree (resolve root s.pattern) = .ok places) :
    ofSource tree root s = (s.files tree root).map (found s.layout) := by
  rw [ofSource, Source.files, h]

theorem ofSource_of_error {fault : Glob.Fault}
    (h : Glob.find tree (resolve root s.pattern) = .error fault) :
    s.files tree root = [] ∧
      ∃ message, ofSource tree root s = [failed (.configuration message)] := by
  rw [ofSource, Source.files, h]
  exact ⟨rfl, _, rfl⟩

/-- The paths of the candidates of a source are those of its files. -/
theorem filterMap_path?_ofSource : (ofSource tree root s).filterMap path? = s.paths tree root := by
  cases hfind : Glob.find tree (resolve root s.pattern) with
  | ok places =>
      rw [ofSource_of_ok hfind, List.filterMap_map, Source.paths]
      exact congrFun List.filterMap_eq_map' _
  | error fault =>
      obtain ⟨hnone, message, hfailed⟩ := ofSource_of_error hfind
      rw [hfailed, Source.paths, hnone]
      rfl

/-- A candidate of a source is one of its files, or says that its pattern is malformed. -/
theorem cases_of_mem_ofSource {c : Candidate} (h : c ∈ ofSource tree root s) :
    (∃ place ∈ s.files tree root, c = found s.layout place) ∨
      ∃ message, c = failed (.configuration message) := by
  cases hfind : Glob.find tree (resolve root s.pattern) with
  | ok places =>
      rw [ofSource_of_ok hfind] at h
      obtain ⟨place, hplace, rfl⟩ := List.mem_map.1 h
      exact .inl ⟨place, hplace, rfl⟩
  | error fault =>
      obtain ⟨-, message, hfailed⟩ := ofSource_of_error hfind
      rw [hfailed] at h
      exact .inr ⟨message, List.mem_singleton.1 h⟩

end Candidate

/-- The failure that a file is loaded as, if it is one. -/
def failure? : Except Failure Catalog → Option Failure
  | .error failure => some failure
  | .ok _ => none

theorem isParse_of_loadsAs {failure : Failure} (h : LoadsAs root layout place (.error failure)) :
    failure.isParse = true := by
  cases h <;> rfl

/-- What candidates are loaded as, when those that are no files are left out. -/
theorem exists_outcomes {R : String → Except Failure Catalog → Prop} {cs : List Candidate}
    (hparse : ∀ path failure, R path (.error failure) → failure.isParse = true)
    (hcs : ∀ c ∈ cs, (∃ path, c.path? = some path ∧ R path (c.load root)) ∨
      ∃ message, c = .failed (.configuration message)) :
    ∃ outcomes, List.Forall₂ R (cs.filterMap Candidate.path?) outcomes ∧
      (cs.map (Candidate.load root)).filterMap Except.toOption =
        outcomes.filterMap Except.toOption ∧
      ((cs.map (Candidate.load root)).filterMap failure?).filter Failure.isParse =
        outcomes.filterMap failure? := by
  induction cs with
  | nil => exact ⟨[], .nil, rfl, rfl⟩
  | cons c cs ih =>
      obtain ⟨hc, hcs⟩ := List.forall_mem_cons.1 hcs
      obtain ⟨outcomes, hall, hcatalogs, hfailures⟩ := ih hcs
      rcases hc with ⟨path, hpath, hload⟩ | ⟨message, rfl⟩
      · refine ⟨c.load root :: outcomes, ?_, ?_, ?_⟩
        · rw [List.filterMap_cons_some hpath]
          exact .cons hload hall
        · rw [List.map_cons, List.filterMap_cons, List.filterMap_cons, hcatalogs]
        · rw [List.map_cons]
          cases houtcome : c.load root with
          | ok catalog =>
              rw [List.filterMap_cons_none rfl, List.filterMap_cons_none rfl, hfailures]
          | error failure =>
              have hfailure := hparse path failure (houtcome ▸ hload)
              have hsome : failure? (.error failure) = some failure := rfl
              rw [List.filterMap_cons_some hsome, List.filterMap_cons_some hsome,
                List.filter_cons_of_pos hfailure, hfailures]
      · exact ⟨outcomes, hall, hcatalogs, hfailures⟩

/-- A file is taken from the first source that finds it by its path. -/
theorem exists_first_of_mem_candidates {sources : List Source} {c : Candidate} {path : String}
    (hc : c ∈ candidates tree root sources) (hpath : c.path? = some path) :
    ∃ s, sources.find? (path ∈ ·.paths tree root) = some s ∧
      c ∈ Candidate.ofSource tree root s := by
  have hfirst := Candidate.find?_eq_some_of_mem_firsts hc hpath
  rw [List.find?_flatMap] at hfirst
  obtain ⟨before, s, after, rfl, hs, hbefore⟩ := List.findSome?_eq_some_iff.1 hfirst
  have hmem : c ∈ Candidate.ofSource tree root s := List.mem_of_find?_eq_some hs
  refine ⟨s, List.find?_eq_some_iff_append.2 ⟨?_, before, after, rfl, fun t ht => ?_⟩, hmem⟩
  · rw [decide_eq_true_iff, ← Candidate.filterMap_path?_ofSource]
    exact List.mem_filterMap.2 ⟨c, hmem, hpath⟩
  · rw [Bool.not_eq_true', decide_eq_false_iff_not, ← Candidate.filterMap_path?_ofSource]
    intro hin
    obtain ⟨d, hd, hd'⟩ := List.mem_filterMap.1 hin
    exact List.find?_eq_none.1 (hbefore t ht) d hd (by simpa using hd')

/-- The candidates are files of the sources, or say that a pattern is malformed. -/
theorem cases_of_mem_candidates {sources : List Source} {c : Candidate}
    (hc : c ∈ candidates tree root sources) :
    (∃ s ∈ sources, ∃ place ∈ s.files tree root, c = .found s.layout place) ∨
      ∃ message, c = .failed (.configuration message) := by
  obtain ⟨s, hs, hmem⟩ := List.mem_flatMap.1 ((Candidate.sublist_firsts _ _).subset hc)
  rcases Candidate.cases_of_mem_ofSource hmem with ⟨place, hplace, rfl⟩ | hfailed
  · exact .inl ⟨s, hs, place, hplace, rfl⟩
  · exact .inr hfailed

/-- What the file is loaded as that sources find by a path: it is loaded as the first of them says
that finds it. -/
def LoadedFrom (tree : Entry) (root : String) (sources : List Source) (path : String)
    (outcome : Except Failure Catalog) : Prop :=
  ∃ s, sources.find? (path ∈ ·.paths tree root) = some s ∧
    ∃ place ∈ s.files tree root, place.pathText = path ∧ LoadsAs root s.layout place outcome

/-- **Loading partitions the files** that sources stand for.  Each path by which a source finds a
file is taken once, in the order in which they are first found, and the file gives a catalog or a
failure of its own, but not both. -/
theorem load_partition {tree : Entry} (htree : tree.Proper) (root : String)
    (sources : List Source) :
    ∃ outcomes : List (Except Failure Catalog),
      List.Forall₂ (LoadedFrom tree root sources)
        (sources.flatMap (·.paths tree root)).eraseDups outcomes ∧
      (Library.load tree root sources).catalogs = outcomes.filterMap Except.toOption ∧
      (Library.load tree root sources).failures.filter Failure.isParse =
        outcomes.filterMap failure? := by
  have hpaths : (candidates tree root sources).filterMap Candidate.path? =
      (sources.flatMap (·.paths tree root)).eraseDups := by
    rw [candidates, Candidate.filterMap_path?_firsts, List.filterMap_flatMap]
    simp [Candidate.filterMap_path?_ofSource]
  rw [← hpaths]
  refine exists_outcomes (fun path failure h => ?_) fun c hc => ?_
  · obtain ⟨s, -, place, -, -, hload⟩ := h
    exact isParse_of_loadsAs hload
  · rcases cases_of_mem_candidates hc with ⟨_, -, place, -, rfl⟩ | hfailed
    · refine .inl ⟨place.pathText, rfl, ?_⟩
      obtain ⟨s, hs, hmem⟩ := exists_first_of_mem_candidates hc rfl
      rcases Candidate.cases_of_mem_ofSource hmem with ⟨place', hplace, heq⟩ | ⟨_, heq⟩
      · obtain ⟨hlayout, rfl⟩ := Candidate.found.inj heq
        rw [hlayout]
        exact ⟨s, hs, place, hplace, rfl, loadsAs_load htree hplace s.layout⟩
      · contradiction
    · exact .inr hfailed

/-- A tree with catalogs in both layouts, and with files that are none. -/
def mixedTree : Entry :=
  .directory [("locales", .directory [("all.json", .file (.text "\x7b\"en\":\x7b\x7d\x7d".toList)),
    ("bad.json", .file (.text "\x7b".toList)), ("en.json", .file (.text "\x7b\x7d".toList)),
    ("locked.json", .file (.unreadable "Permission denied (os error 13)")),
    ("raw.json", .file .binary)])]

/-- Sources that overlap, with different layouts. -/
def mixedSources : List Source := [⟨"locales/all.json", .key⟩, ⟨"./locales/*.json", .file⟩]

theorem proper_mixedTree : mixedTree.Proper := by
  refine .directory (List.pairwise_singleton _ _) (by decide) (List.forall_mem_singleton.2 ?_)
  refine .directory (by decide) (by decide) ?_
  simp [Proper.file]

/-- The catalog of two sources is loaded from the first one, and each file without one fails
once. -/
theorem load_partition_mixed :
    mixedTree.Proper ∧
      (∃ outcomes, List.Forall₂ (LoadedFrom mixedTree "." mixedSources)
        ["locales/all.json", "locales/bad.json", "locales/en.json", "locales/locked.json",
          "locales/raw.json"] outcomes ∧
        (Library.load mixedTree "." mixedSources).catalogs = outcomes.filterMap Except.toOption ∧
        (Library.load mixedTree "." mixedSources).failures.filter Failure.isParse =
          outcomes.filterMap failure?) ∧
      (Library.load mixedTree "." mixedSources).catalogs.map (fun c => (c.path, c.layout)) =
        [("locales/all.json", .key), ("locales/en.json", .file)] := by
  have hpaths : (mixedSources.flatMap (·.paths mixedTree ".")).eraseDups =
      ["locales/all.json", "locales/bad.json", "locales/en.json", "locales/locked.json",
        "locales/raw.json"] := by
    decide +kernel
  have hpartition := load_partition proper_mixedTree "." mixedSources
  rw [hpaths] at hpartition
  exact ⟨proper_mixedTree, hpartition, by decide +kernel⟩

/-! ## catalogs by their paths -/

theorem toOption_eq_some_iff {outcome : Except Failure Catalog} {c : Catalog} :
    outcome.toOption = some c ↔ outcome = .ok c := by
  cases outcome <;> simp [Except.toOption]

theorem mem_catalogs_iff {sources : List Source} {c : Catalog} :
    c ∈ (Library.load tree root sources).catalogs ↔
      ∃ d ∈ candidates tree root sources, d.load root = .ok c := by
  simp [Library.load, candidates, toOption_eq_some_iff]

/-- A candidate that gives a catalog is a file, with the path and the text of the catalog. -/
theorem exists_file_of_load (htree : tree.Proper) {sources : List Source} {d : Candidate}
    (hd : d ∈ candidates tree root sources) {c : Catalog} (hload : d.load root = .ok c) :
    ∃ s ∈ sources, ∃ place ∈ s.files tree root, d = .found s.layout place ∧
      place.entry = .file (.text c.text) ∧ c.path = place.pathText := by
  rcases cases_of_mem_candidates hd with ⟨s, hs, place, hplace, rfl⟩ | ⟨_, rfl⟩
  · have hloads := loadsAs_load htree hplace s.layout
    rw [hload] at hloads
    cases hloads with
    | catalog _ hentry hpath => exact ⟨s, hs, place, hplace, rfl, hentry, hpath⟩
  · contradiction

/-- **Catalogs are told apart by their paths.** -/
theorem nodup_paths_catalogs (htree : tree.Proper) {sources : List Source} :
    ((Library.load tree root sources).catalogs.map (·.path)).Nodup := by
  have hpaths : ((candidates tree root sources).filterMap Candidate.path?).Nodup :=
    (Candidate.nodup_paths_firsts [] _).1
  rw [List.Nodup, List.pairwise_filterMap] at hpaths
  rw [Library.load, ← candidates, List.Nodup, List.pairwise_map, List.filterMap_map,
    List.pairwise_filterMap]
  refine hpaths.imp_of_mem fun {d d'} hd hd' hne c hc c' hc' => ?_
  have hpath {d : Candidate} (hd : d ∈ candidates tree root sources) {c : Catalog}
      (hc : (d.load root).toOption = some c) : d.path? = some c.path := by
    obtain ⟨_, -, place, -, rfl, -, hpath⟩ :=
      exists_file_of_load htree hd (toOption_eq_some_iff.1 hc)
    rw [hpath]
    rfl
  exact hne c.path (hpath hd hc) c'.path (hpath hd' hc')

theorem isSome_stem?_of_mem_catalogs (htree : tree.Proper) {sources : List Source} {c : Catalog}
    (hc : c ∈ (Library.load tree root sources).catalogs) : (stem? c.path).isSome := by
  obtain ⟨d, hd, hload⟩ := mem_catalogs_iff.1 hc
  obtain ⟨s, -, place, hplace, -, -, hpath⟩ := exists_file_of_load htree hd hload
  obtain ⟨above, name, hname⟩ := exists_name_of_mem_files htree hplace
  have hfile : fileName? c.path = some name := by
    rw [fileName?, hpath, components_pathText htree (stands_of_mem_files htree hplace), hname,
      List.getLast?_concat]
  rw [stem?, hfile]
  cases extension? c.path <;> rfl

/-- In a list whose elements are told apart by a key, a test that fixes the key finds the only
element that it can hold of. -/
theorem find?_eq_some_of_nodup {α κ : Type} {key : α → κ} {l : List α} (h : (l.map key).Nodup)
    {a : α} (ha : a ∈ l) {test : α → Bool} (htest : test a = true)
    (hkey : ∀ b, test b = true → key b = key a) : l.find? test = some a := by
  obtain ⟨b, hb⟩ := Option.isSome_iff_exists.1 (List.find?_isSome.2 ⟨a, ha, htest⟩)
  have hsame := hkey b (List.find?_some hb)
  rw [hb, List.inj_on_of_nodup_map h (List.mem_of_find?_eq_some hb) ha hsame]

/-- **Lookup finds what has been loaded.**  A path leads to the catalog that has its normal form for
a path, and there is only one; a path whose normal form no catalog has leads to none. -/
theorem find?_load {tree : Entry} (htree : tree.Proper) (root : String) {sources : List Source}
    (hsources : sources ≠ []) (path : String) :
    let l := Library.load tree root sources
    (∀ c ∈ l.catalogs, normalize path = c.path → l.find? path = .ok (some c)) ∧
      ((∀ c ∈ l.catalogs, normalize path ≠ c.path) → l.find? path = .ok none) := by
  intro l
  have hconfigured : l.sources.isEmpty = false := by
    simpa [l, Library.load] using hsources
  rw [Library.find?, hconfigured, if_neg Bool.false_ne_true]
  refine ⟨fun c hc hpath => congrArg Except.ok ?_, fun hnone => congrArg Except.ok ?_⟩
  · refine find?_eq_some_of_nodup (nodup_paths_catalogs htree) hc ?_ fun d hd => ?_
    · obtain ⟨stem, hstem⟩ := Option.isSome_iff_exists.1 (isSome_stem?_of_mem_catalogs htree hc)
      -- a file in the layout of files provides the locale that it is named like
      refine Bool.and_eq_true_iff.2 ⟨decide_eq_true hpath.symm, ?_⟩
      rw [hpath, hstem, Catalog.locales]
      cases c.layout <;> simp [hstem]
    · exact (of_decide_eq_true (Bool.and_eq_true_iff.1 hd).1).trans hpath
  · refine List.find?_eq_none.2 fun c hc => ?_
    simp [Ne.symm (hnone c hc)]

/-- A catalog is found by another spelling of its path, and none by the path of a malformed file. -/
theorem find?_load_spelled :
    let l := Library.load mixedTree "." mixedSources
    mixedTree.Proper ∧ mixedSources ≠ [] ∧
      (∃ c ∈ l.catalogs, c.layout = .file ∧ l.find? "./locales//en.json" = .ok (some c)) ∧
      l.find? "locales/./bad.json" = .ok none := by
  intro l
  have hsources : mixedSources ≠ [] := List.cons_ne_nil _ _
  obtain ⟨c, hc, hpath, hlayout⟩ : ∃ c ∈ l.catalogs,
      normalize "./locales//en.json" = c.path ∧ c.layout = .file := by decide +kernel
  have hnone : ∀ c ∈ l.catalogs, normalize "locales/./bad.json" ≠ c.path := by decide +kernel
  exact ⟨proper_mixedTree, hsources,
    ⟨c, hc, hlayout, (find?_load proper_mixedTree "." hsources _).1 c hc hpath⟩,
    (find?_load proper_mixedTree "." hsources _).2 hnone⟩

end LocaleAudit.Locale
