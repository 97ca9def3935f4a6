import LocaleAudit.Config.Basic
import LocaleAudit.Proofs.Glob.Moved
import LocaleAudit.Proofs.Locale.Files

/-!
# LocaleAudit.Proofs.Locale.Moved

The catalogs of a project, wherever it is.  Its tree alone, and the tree in a directory of another
one, have the same catalogs, as far as they are shown, and the same failures, if the path of the
directory is read as a pattern for nothing else.

* `Behind`, `biUnique_behind` — paths with a root in front;
* `Catalog.Moved` — what stays the same in a catalog;
* `forall₂_firsts`, `loadedAlike_load` — which candidates are taken, and what they are loaded as;
* `load_moved` — the catalogs and failures of a project;
* `unfound_in_brackets` — a project in a directory whose name is a pattern for another one.
-/

namespace LocaleAudit.Locale

open LocaleAudit.Path Place Entry

/-! ## paths behind a root -/

/-- A path with a root in front, and the same path without it. -/
def Behind (root path path' : String) : Prop :=
  ∃ cs, (∀ c ∈ cs, ProperComponent c) ∧ path = ofComponents (steps root ++ cs) ∧
    path' = ofComponents cs

theorem properComponent_append {root : String} (hroot : isAbsolute root = false)
    {cs : List Component} (hcs : ∀ c ∈ cs, ProperComponent c) :
    ∀ c ∈ steps root ++ cs, ProperComponent c :=
  List.forall_mem_append.2 ⟨properComponent_of_mem_steps hroot, hcs⟩

theorem biUnique_behind {root : String} (hroot : isAbsolute root = false) :
    Relator.BiUnique (Behind root) := by
  constructor
  · rintro _ _ _ ⟨cs, hcs, rfl, rfl⟩ ⟨ds, hds, rfl, heq⟩
    rw [ofComponents_inj hcs hds heq]
  · rintro _ _ _ ⟨cs, hcs, rfl, rfl⟩ ⟨ds, hds, heq, rfl⟩
    have happend := ofComponents_inj (properComponent_append hroot hcs)
      (properComponent_append hroot hds) heq
    rw [List.append_cancel_left happend]

/-! ## catalogs -/

/-- A catalog of a tree that is behind a root, and the same catalog of the tree alone: the root is
in front of its path, and all else is the same. -/
structure Catalog.Moved (root : String) (c c' : Catalog) : Prop where
  /-- The path of the file. -/
  path : components c.path = steps root ++ components c'.path
  /-- The path as it is shown. -/
  shown : c.shown = c'.shown
  /-- The layout. -/
  layout : c.layout = c'.layout
  /-- The text of the file. -/
  text : c.text = c'.text
  /-- What is in the text. -/
  messages : c.messages = c'.messages
  /-- The locales. -/
  locales : c.locales = c'.locales

/-- What a file is loaded as is the same wherever it is, but for its path. -/
inductive LoadedAlike (root : String) :
    Except Failure Catalog → Except Failure Catalog → Prop
  | failed (failure : Failure) : LoadedAlike root (.error failure) (.error failure)
  | loaded {c c' : Catalog} (h : c.Moved root c') : LoadedAlike root (.ok c) (.ok c')

theorem Catalog.messages_eq_of_text {c c' : Catalog} (h : c.text = c'.text) :
    c.messages = c'.messages := by
  have hparsed := c.parsed
  rw [h, c'.parsed] at hparsed
  rw [Catalog.messages, Catalog.messages, Except.ok.inj hparsed]

theorem stem?_congr {path path' : String} (h : fileName? path = fileName? path') :
    stem? path = stem? path' := by
  rw [stem?, stem?, extension?, extension?, h]

/-- A catalog that has been moved provides the same locales if its file has a name. -/
theorem Catalog.locales_eq {c c' : Catalog} (hpath : (components c.path).getLast? =
    (components c'.path).getLast?) (hlayout : c.layout = c'.layout) (htext : c.text = c'.text) :
    c.locales = c'.locales := by
  have hname : fileName? c.path = fileName? c'.path := by rw [fileName?, fileName?, hpath]
  rw [Catalog.locales, Catalog.locales, hlayout, Catalog.messages_eq_of_text htext,
    stem?_congr hname]

/-! ## candidates -/

/-- A place that has been moved behind a root, and the file that is found there, by its name, in the
tree alone. -/
structure MovedFile (root : String) (tree : Entry) (p q : Place) : Prop where
  /-- The root is in front of the path. -/
  path : p.path = steps root ++ q.path
  /-- The file is the same. -/
  entry : p.entry = q.entry
  /-- It stands in the tree. -/
  stands : Place.Stands tree q
  /-- It is found by its name. -/
  name : ∃ above name, q.path = above ++ [.name name]

/-- A candidate in a tree that is behind a root, and the same candidate in the tree alone. -/
inductive Candidate.Moved (root : String) (tree : Entry) : Candidate → Candidate → Prop
  | found (layout : Layout) {p q : Place} (h : MovedFile root tree p q) :
      Moved root tree (found layout p) (found layout q)
  | failed (failure : Failure) : Moved root tree (failed failure) (failed failure)

section moved

variable {root : String} (hroot : isAbsolute root = false) {tree : Entry} (htree : tree.Proper)
  {p q : Place}
include hroot htree

theorem pathText_moved (h : MovedFile root tree p q) :
    p.pathText = ofComponents (steps root ++ q.path) ∧ q.pathText = ofComponents q.path := by
  have hproper := properComponent_of_walk htree h.stands
  have hpath : ∀ c ∈ p.path, ProperComponent c := h.path ▸ properComponent_append hroot hproper
  rw [pathText_eq hpath, pathText_eq hproper, h.path]
  exact ⟨rfl, rfl⟩

/-- The path that is shown does not tell where the root is. -/
theorem display_moved (h : MovedFile root tree p q) :
    display root p.pathText = display "." q.pathText := by
  have hproper := properComponent_of_walk htree h.stands
  obtain ⟨hp, hq⟩ := pathText_moved hroot htree h
  rw [display, display, hp, hq, steps_ofComponents (properComponent_append hroot hproper),
    steps_ofComponents hproper, Text.behind?_eq_some_iff.2 rfl, steps_dot, Text.behind?]
  rfl

/-- The catalogs of a text are the same wherever its file is. -/
theorem loadedAlike_ofText (h : MovedFile root tree p q) (shown : String) (layout : Layout)
    (text : List Char) :
    LoadedAlike root (Catalog.ofText p.pathText shown layout text)
      (Catalog.ofText q.pathText shown layout text) := by
  cases hparse : Json.parse text with
  | error fault =>
      rw [ofText_of_error hparse, ofText_of_error hparse]
      exact .failed _
  | ok node =>
      obtain ⟨c, hc, hpath, hshown, hlayout, htext⟩ :=
        exists_ofText_of_ok p.pathText shown layout hparse
      obtain ⟨c', hc', hpath', hshown', hlayout', htext'⟩ :=
        exists_ofText_of_ok q.pathText shown layout hparse
      have hproper := properComponent_of_walk htree h.stands
      have happend := properComponent_append hroot hproper
      obtain ⟨hp, hq⟩ := pathText_moved hroot htree h
      rw [hp, normalize_ofComponents happend] at hpath
      rw [hq, normalize_ofComponents hproper] at hpath'
      have hcomponents : components c.path = steps root ++ q.path := by
        rw [hpath, components_ofComponents happend]
      have hcomponents' : components c'.path = q.path := by
        rw [hpath', components_ofComponents hproper]
      have hlast : (components c.path).getLast? = (components c'.path).getLast? := by
        obtain ⟨above, name, hname⟩ := h.name
        rw [hcomponents, hcomponents', hname, ← List.append_assoc, List.getLast?_concat,
          List.getLast?_concat]
      have hlayouts := hlayout.trans hlayout'.symm
      have htexts := htext.trans htext'.symm
      rw [hc, hc']
      exact .loaded
        { path := by rw [hcomponents, hcomponents']
          shown := hshown.trans hshown'.symm
          layout := hlayouts
          text := htexts
          messages := Catalog.messages_eq_of_text htexts
          locales := Catalog.locales_eq hlast hlayouts htexts }

/-- **A file is loaded as the same** wherever it is. -/
theorem loadedAlike_load {c c' : Candidate} (h : c.Moved root tree c') :
    LoadedAlike root (c.load root) (c'.load ".") := by
  cases h with
  | failed failure => exact .failed failure
  | @found layout p q h =>
      rw [Candidate.load, Candidate.load, display_moved hroot htree h, h.entry]
      cases q.entry.read with
      | error reason => exact .failed _
      | ok text => exact loadedAlike_ofText hroot htree h _ layout text

end moved

/-- **The candidates that are taken** correspond if the candidates do, and if paths are the same
where the paths that they correspond to are. -/
theorem forall₂_firsts {R : Candidate → Candidate → Prop} {S : String → String → Prop}
    (hS : Relator.BiUnique S) (hpath : ∀ c c', R c c' → Option.Rel S c.path? c'.path?)
    {cs cs' : List Candidate} (h : List.Forall₂ R cs cs') {seen seen' : List String}
    (hseen : List.Forall₂ S seen seen') :
    List.Forall₂ R (Candidate.firsts seen cs) (Candidate.firsts seen' cs') := by
  induction h generalizing seen seen' with
  | nil => exact .nil
  | @cons c c' cs cs' hfirst _ ih =>
      have hrel := hpath c c' hfirst
      rw [Candidate.firsts, Candidate.firsts]
      generalize c.path? = path, c'.path? = path' at hrel
      cases hrel with
      | none => exact .cons hfirst (ih hseen)
      | @some path path' hsame =>
          have hcontains : seen.contains path = seen'.contains path' := by
            rw [Bool.eq_iff_iff, List.contains_iff_mem, List.contains_iff_mem]
            exact List.rel_mem hS hsame hseen
          dsimp only
          rw [hcontains]
          split
          · exact ih hseen
          · exact .cons hfirst (ih (.cons hsame hseen))

/-! ## projects -/

section rooted

variable {outer tree : Entry} {root : String} {base : Place} (hroot : Glob.Rooted outer root base)
  (hentry : base.entry = tree) (htree : tree.Proper)
include hroot hentry htree

/-- A source that does not stand for two dots gives the same candidates. -/
theorem forall₂_ofSource {s : Source} (hrelative : isAbsolute s.pattern = false)
    (hparse : (Glob.Pattern.parse s.pattern).isOk = true) (hclimbs : ¬ Glob.Climbs s.pattern) :
    List.Forall₂ (Candidate.Moved root tree) (Candidate.ofSource outer root s)
      (Candidate.ofSource tree "." s) := by
  have hbase : base.path = steps root := (trail_of_walk hroot.leads).2
  have hfind := Glob.foundAlike_find hroot hentry hrelative hparse hclimbs
  rw [Candidate.ofSource, Candidate.ofSource]
  generalize hthere : Glob.find outer (resolve root s.pattern) = there at hfind ⊢
  generalize hhere : Glob.find tree (resolve "." s.pattern) = here at hfind ⊢
  cases hfind with
  | malformed fault => exact .cons (.failed _) .nil
  | @found ps ps' hall =>
      have hfiles : s.files tree "." = ps'.filter fun p => !p.isDirectory := by
        rw [Source.files, hhere]
      have hnamed : ∀ q ∈ s.files tree ".",
          Place.Stands tree q ∧ ∃ above name, q.path = above ++ [.name name] :=
        fun q hq => ⟨stands_of_mem_files htree hq, exists_name_of_mem_files htree hq⟩
      have hkept : List.Forall₂ (flip (Place.Moved base)) (s.files tree ".")
          (ps.filter fun p => !p.isDirectory) := by
        rw [hfiles]
        refine (List.rel_filter (fun p q hpq => ?_) hall).flip
        exact Bool.eq_iff_iff.1 (congrArg (!·) hpq.isDirectory)
      dsimp only
      rw [← hfiles, List.forall₂_map_left_iff, List.forall₂_map_right_iff]
      refine List.Forall₂.flip (((List.forall₂_and_left _ _).2 ⟨hnamed, hkept⟩).imp ?_)
      rintro q p ⟨⟨hstands, hname⟩, hmoved⟩
      exact .found _ ⟨hbase ▸ hmoved.path, hmoved.entry, hstands, hname⟩

/-- The candidates that are taken are the same. -/
theorem forall₂_candidates {sources : List Source}
    (hsources : ∀ s ∈ sources, isAbsolute s.pattern = false ∧
      (Glob.Pattern.parse s.pattern).isOk = true ∧ ¬ Glob.Climbs s.pattern) :
    List.Forall₂ (Candidate.Moved root tree) (candidates outer root sources)
      (candidates tree "." sources) := by
  have habsolute := hroot.isAbsolute_eq_false
  have hpath (c c' : Candidate) (h : c.Moved root tree c') :
      Option.Rel (Behind root) c.path? c'.path? := by
    cases h with
    | failed => exact .none
    | @found layout p q h =>
        obtain ⟨hp, hq⟩ := pathText_moved habsolute htree h
        exact .some ⟨q.path, properComponent_of_walk htree h.stands, hp, hq⟩
  refine forall₂_firsts (biUnique_behind habsolute) hpath ?_ .nil
  refine forall₂_flatMap fun s hs => ?_
  obtain ⟨hrelative, hparse, hclimbs⟩ := hsources s hs
  exact forall₂_ofSource hroot hentry htree hrelative hparse hclimbs

end rooted

theorem isOk_parse_of_badPattern? {place : String} {texts : List String}
    (h : Config.badPattern? place texts = none) :
    ∀ text ∈ texts, (Glob.Pattern.parse text).isOk = true := by
  intro text htext
  have hnone := List.findSome?_eq_none_iff.1 h text htext
  cases hparse : Glob.Pattern.parse text with
  | ok pattern => rfl
  | error fault =>
      rw [hparse] at hnone
      contradiction

/-- The sources of a configuration without problems are patterns. -/
theorem isOk_parse_of_problem? {config : Config} (h : config.problem? = none) :
    ∀ s ∈ config.localeSources, (Glob.Pattern.parse s.pattern).isOk = true := by
  rw [Config.problem?, Option.orElse_eq_orElse, Option.orElse_eq_or, Option.or_eq_none_iff] at h
  exact fun s hs => isOk_parse_of_badPattern? h.2 _ (List.mem_map_of_mem hs)

/-- **A project is the same wherever it is.**  A tree that a root leads to has the same catalogs and
the same failures as the tree alone, if the root is a pattern for nothing else, and if nothing stands
for two dots in the sources.  The root is in front of the paths, but it is not shown. -/
theorem load_moved {outer tree : Entry} {root : String} {base : Place}
    (hroot : Glob.Rooted outer root base) (hentry : base.entry = tree) (htree : tree.Proper)
    {config : Config} (hvalid : config.problem? = none)
    (hsources : ∀ s ∈ config.localeSources,
      isAbsolute s.pattern = false ∧ ¬ Glob.Climbs s.pattern) :
    let there := Library.load outer root config.localeSources
    let here := Library.load tree "." config.localeSources
    List.Forall₂ (Catalog.Moved root) there.catalogs here.catalogs ∧
      there.failures = here.failures := by
  intro there here
  have hcandidates := forall₂_candidates hroot hentry htree fun s hs =>
    ⟨(hsources s hs).1, isOk_parse_of_problem? hvalid s hs, (hsources s hs).2⟩
  have hloaded : List.Forall₂ (LoadedAlike root)
      ((candidates outer root config.localeSources).map (Candidate.load root))
      ((candidates tree "." config.localeSources).map (Candidate.load ".")) :=
    List.rel_map (fun _ _ h => loadedAlike_load hroot.isAbsolute_eq_false htree h) hcandidates
  constructor
  · refine List.rel_filterMap (fun x y h => ?_) hloaded
    cases h with
    | failed failure => exact .none
    | loaded h => exact .some h
  · have hfailures : List.Forall₂ Eq there.failures here.failures := by
      refine List.rel_filterMap (fun x y h => ?_) hloaded
      cases h with
      | failed failure => exact .some rfl
      | loaded h => exact .none
    rwa [List.forall₂_eq_eq_eq] at hfailures

/-- A tree with a project in one directory, and locales that do not belong to it in another. -/
def workspaceTree : Entry :=
  .directory [("my app", mixedTree), ("other", .directory [("en.json", .file (.text []))])]

/-- The configuration of that project. -/
def mixedConfig : Config :=
  { localeDir := some (.many [.source "locales/all.json" .key, .pattern "./locales/*.json"]) }

/-- A project that is moved into a directory next to another one keeps its catalogs and its
failures. -/
theorem load_moved_mixed :
    let base : Place := ⟨[.name "my app"], [mixedTree, workspaceTree]⟩
    let there := Library.load workspaceTree "my app" mixedConfig.localeSources
    let here := Library.load mixedTree "." mixedConfig.localeSources
    Glob.Rooted workspaceTree "my app" base ∧ mixedTree.Proper ∧ mixedConfig.problem? = none ∧
      (∀ s ∈ mixedConfig.localeSources, isAbsolute s.pattern = false ∧ ¬ Glob.Climbs s.pattern) ∧
      there.catalogs.map (·.path) = ["my app/locales/all.json", "my app/locales/en.json"] ∧
      List.Forall₂ (Catalog.Moved "my app") there.catalogs here.catalogs ∧
      here.failures.length = 3 ∧ there.failures = here.failures := by
  intro base there here
  have hall : "my app".toList.all (Glob.Plain ·) = true := by decide +kernel
  have hplain : ∀ d ∈ "my app".toList, Glob.Plain d :=
    fun d hd => of_decide_eq_true (List.all_eq_true.1 hall d hd)
  have hroot : Glob.Rooted workspaceTree "my app" base := Glob.rooted_of_plain hplain rfl rfl
  have hvalid : mixedConfig.problem? = none := by decide +kernel
  have hsources : ∀ s ∈ mixedConfig.localeSources,
      isAbsolute s.pattern = false ∧ ¬ Glob.Climbs s.pattern := by decide +kernel
  have hpaths : there.catalogs.map (·.path) =
      ["my app/locales/all.json", "my app/locales/en.json"] := by decide +kernel
  have hfailures : here.failures.length = 3 := by decide +kernel
  obtain ⟨hcatalogs, hsame⟩ := load_moved hroot rfl proper_mixedTree hvalid hsources
  exact ⟨hroot, proper_mixedTree, hvalid, hsources, hpaths, hcatalogs, hfailures, hsame⟩

/-- A tree with one locale. -/
def englishTree : Entry :=
  .directory [("locales", .directory [("en.json", .file (.text "\x7b\"a\":1\x7d".toList))])]

/-- A project has no locale where the name of its directory is a pattern for another one, and a
failure more where that name is no pattern. -/
theorem unfound_in_brackets :
    let config : Config := { localeDir := some (.one (.pattern "locales/*.json")) }
    let inside (name : String) : Entry := .directory [(name, englishTree)]
    let loaded (name : String) := Library.load (inside name) name config.localeSources
    let here := Library.load englishTree "." config.localeSources
    config.problem? = none ∧
      (∀ s ∈ config.localeSources, isAbsolute s.pattern = false ∧ ¬ Glob.Climbs s.pattern) ∧
      (∀ name ∈ ["[x]", "[x"], (Place.find? (inside name) name).map (·.entry) = some englishTree) ∧
      here.catalogs.map (·.shown) = ["locales/en.json"] ∧ here.failures = [] ∧
      (loaded "[x]").catalogs.map (·.shown) = [] ∧
      (loaded "[x").failures = [.configuration ("Invalid locale pattern 'locales/*.json': " ++
        "Pattern syntax error near position 0: invalid range pattern")] := by
  intro config inside loaded here
  refine ⟨by decide +kernel, by decide +kernel, ?_, by decide +kernel, by decide +kernel,
    by decide +kernel, by decide +kernel⟩
  exact List.forall_mem_cons.2 ⟨rfl, List.forall_mem_singleton.2 rfl⟩

end LocaleAudit.Locale
