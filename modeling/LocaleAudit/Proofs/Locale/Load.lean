import LocaleAudit.Locale.Load
import LocaleAudit.Proofs.Glob.Resolve

/-!
# LocaleAudit.Proofs.Locale.Load

The catalogs of a tree, and those of the same tree without a file.  A file that is malformed has no
catalog, so that the catalogs are the same without it, and it has one failure for each path that it
is found by.

* `Candidate.firsts_remove` — the paths that are taken, without the file;
* `catalogs_remove`, `failures_remove` — what is loaded without a file that is malformed;
* `AllInside` — sources that do not lead out of the tree;
* `length_pathsTo_le_one` — sources that find each file by one path.
-/

namespace LocaleAudit.Locale

open LocaleAudit.Path Place Entry

namespace Candidate

/-! ## paths -/

theorem sublist_firsts (seen : List String) (cs : List Candidate) :
    (firsts seen cs).Sublist cs := by
  induction cs generalizing seen with
  | nil => exact .slnil
  | cons c cs ih =>
      rw [firsts]
      split
      · exact (ih seen).cons_cons c
      · split
        · exact (ih seen).cons c
        · exact (ih _).cons_cons c

/-- Each path is taken once, and none that has been seen. -/
theorem nodup_paths_firsts (seen : List String) (cs : List Candidate) :
    ((firsts seen cs).filterMap path?).Nodup ∧
      ∀ path ∈ (firsts seen cs).filterMap path?, path ∉ seen := by
  induction cs generalizing seen with
  | nil => exact ⟨.nil, fun _ h => nomatch h⟩
  | cons c cs ih =>
      rw [firsts]
      split
      · rename_i hpath
        rw [List.filterMap_cons, hpath]
        exact ih seen
      · rename_i path hpath
        split
        · exact ih seen
        · rename_i hseen
          obtain ⟨hnodup, hnew⟩ := ih (path :: seen)
          rw [List.filterMap_cons, hpath]
          refine ⟨List.nodup_cons.2 ⟨fun h => hnew path h List.mem_cons_self, hnodup⟩, ?_⟩
          refine List.forall_mem_cons.2 ⟨by simpa using hseen, fun path' h h' => ?_⟩
          exact hnew path' h (List.mem_cons_of_mem _ h')

/-! ## without a file -/

/-- The candidate with the path of a candidate in another tree, if there is one. -/
def counterpart? (other : Entry) : Candidate → Option Candidate
  | found layout place => (place.counterpart? other).map (found layout)
  | failed failure => some (failed failure)

/-- The candidate is a failure, or a file that stands in the tree. -/
def Stands (tree : Entry) : Candidate → Prop
  | found _ place => Place.Stands tree place
  | failed _ => True

/-- The candidate is the file that the names lead to. -/
def IsAt (names : List String) : Candidate → Prop
  | found _ place => place.location? = some names
  | failed _ => False

instance (names : List String) (c : Candidate) : Decidable (c.IsAt names) :=
  match c with
  | found _ place => inferInstanceAs (Decidable (place.location? = some names))
  | failed _ => inferInstanceAs (Decidable False)

theorem stands_of_mem_ofSource {tree : Entry} (htree : tree.Proper) {root : String} {s : Source} :
    ∀ c ∈ ofSource tree root s, c.Stands tree := by
  intro c hc
  rw [ofSource] at hc
  split at hc
  · rename_i places hplaces
    obtain ⟨p, hp, rfl⟩ := List.mem_map.1 hc
    exact Glob.stands_of_find htree hplaces p (List.mem_filter.1 hp).1
  · rw [List.mem_singleton.1 hc]
    trivial

section removal

variable {tree : Entry} {gone : List String} (hgone : Removal tree gone)
include hgone

theorem ofSource_remove (root : String) (s : Source) :
    ofSource (remove gone tree) root s =
      (ofSource tree root s).filterMap (counterpart? (remove gone tree)) := by
  rw [ofSource, ofSource, Glob.find_remove hgone]
  cases hplaces : Glob.find tree (resolve root s.pattern) with
  | error fault => rfl
  | ok places =>
      have hstands := Glob.stands_of_find hgone.proper hplaces
      dsimp only [Except.map]
      rw [← filterMap_filter, List.map_filterMap, List.filterMap_map]
      · rfl
      · intro q hq q' hq'
        rw [Place.isDirectory, Place.isDirectory,
          (thinned_of_counterpart? hgone (hstands q hq) hq').2.isDirectory]

theorem counterpart?_eq_none_iff {c : Candidate} (hc : c.Stands tree) :
    c.counterpart? (remove gone tree) = none ↔ c.IsAt gone := by
  cases c with
  | found layout place =>
      rw [counterpart?, Option.map_eq_none_iff]
      exact Place.counterpart?_eq_none_iff hgone hc
  | failed failure => exact ⟨nofun, False.elim⟩

/-- A candidate and its counterpart have one path and give one catalog. -/
theorem load_counterpart? {c c' : Candidate} (hc : c.Stands tree)
    (hc' : c.counterpart? (remove gone tree) = some c') (root : String) :
    c'.path? = c.path? ∧ c'.load root = c.load root := by
  cases c with
  | found layout place =>
      obtain ⟨place', hplace, rfl⟩ := Option.map_eq_some_iff.1 hc'
      obtain ⟨hpath, hthinned⟩ := thinned_of_counterpart? hgone hc hplace
      have htext : place'.pathText = place.pathText := by rw [pathText, pathText, hpath]
      refine ⟨congrArg some htext, ?_⟩
      rw [load, load, htext, Entry.read, Entry.read, hthinned.content]
  | failed failure =>
      obtain rfl := Option.some.inj hc'
      exact ⟨rfl, rfl⟩

/-- Candidates with one path are both the file that is removed, or neither is. -/
theorem isAt_iff_of_path? {c d : Candidate} (hc : c.Stands tree) (hd : d.Stands tree)
    {path : String} (hpath : c.path? = some path) (hpath' : d.path? = some path) :
    c.IsAt gone ↔ d.IsAt gone := by
  cases c with
  | failed => contradiction
  | found layout place =>
      cases d with
      | failed => contradiction
      | found layout' place' =>
          have htext := (Option.some.inj hpath).trans (Option.some.inj hpath').symm
          rw [IsAt, IsAt, eq_of_pathText hgone.proper hc hd htext]

/-- **The paths that are taken** are the same without the file. -/
theorem firsts_remove {cs : List Candidate} (hcs : ∀ c ∈ cs, c.Stands tree)
    {seen seen' : List String}
    (hseen : ∀ c ∈ cs, ¬ c.IsAt gone → ∀ path, c.path? = some path → (path ∈ seen' ↔ path ∈ seen)) :
    firsts seen' (cs.filterMap (counterpart? (remove gone tree))) =
      (firsts seen cs).filterMap (counterpart? (remove gone tree)) := by
  induction cs generalizing seen seen' with
  | nil => rfl
  | cons c cs ih =>
      obtain ⟨hc, hcs⟩ := List.forall_mem_cons.1 hcs
      obtain ⟨hhead, htail⟩ := List.forall_mem_cons.1 hseen
      rw [List.filterMap_cons]
      cases hcounterpart : c.counterpart? (remove gone tree) with
      | none =>
          have hat := (counterpart?_eq_none_iff hgone hc).1 hcounterpart
          dsimp only
          rw [firsts]
          cases hpath : c.path? with
          | none =>
              dsimp only
              rw [List.filterMap_cons, hcounterpart]
              exact ih hcs htail
          | some path =>
              dsimp only
              split
              · exact ih hcs htail
              · rw [List.filterMap_cons, hcounterpart]
                -- the path of the file is not that of any other candidate
                refine ih hcs fun d hd hnot path' hpath' => ?_
                have hne : path' ≠ path := by
                  rintro rfl
                  exact hnot ((isAt_iff_of_path? hgone hc (hcs d hd) hpath hpath').1 hat)
                rw [htail d hd hnot path' hpath', List.mem_cons, or_iff_right hne]
      | some c' =>
          have hnot : ¬ c.IsAt gone := fun hat => by
            rw [(counterpart?_eq_none_iff hgone hc).2 hat] at hcounterpart
            contradiction
          have hsame := (load_counterpart? hgone hc hcounterpart "").1
          dsimp only
          rw [firsts, firsts, hsame]
          cases hpath : c.path? with
          | none =>
              dsimp only
              rw [List.filterMap_cons, hcounterpart, ih hcs htail]
          | some path =>
              have hcontains : seen'.contains path = seen.contains path := by
                rw [Bool.eq_iff_iff, List.contains_iff_mem, List.contains_iff_mem]
                exact hhead hnot path hpath
              dsimp only
              rw [hcontains]
              split
              · exact ih hcs htail
              · rw [List.filterMap_cons, hcounterpart, ih hcs fun d hd hnot' path' hpath' => ?_]
                rw [List.mem_cons, List.mem_cons, htail d hd hnot' path' hpath']

end removal

end Candidate

/-! ## catalogs -/

/-- The files that are candidates for catalogs, each path once. -/
def candidates (tree : Entry) (root : String) (sources : List Source) : List Candidate :=
  Candidate.firsts [] (sources.flatMap (Candidate.ofSource tree root))

/-- The paths by which sources find the place that the names lead to. -/
def pathsTo (tree : Entry) (root : String) (sources : List Source) (names : List String) :
    List String :=
  ((candidates tree root sources).filter (·.IsAt names)).filterMap Candidate.path?

theorem stands_of_mem_candidates {tree : Entry} (htree : tree.Proper) {root : String}
    {sources : List Source} : ∀ c ∈ candidates tree root sources, c.Stands tree := by
  intro c hc
  obtain ⟨s, -, hc⟩ := List.mem_flatMap.1 ((Candidate.sublist_firsts _ _).subset hc)
  exact Candidate.stands_of_mem_ofSource htree c hc

section removal

variable {tree : Entry} {gone : List String} (hgone : Removal tree gone) {root : String}
  {sources : List Source}
include hgone

theorem candidates_remove :
    candidates (remove gone tree) root sources =
      (candidates tree root sources).filterMap (Candidate.counterpart? (remove gone tree)) := by
  rw [candidates, candidates, ← Candidate.firsts_remove hgone]
  · rw [List.filterMap_flatMap]
    exact congrArg _ (List.flatMap_congr fun s _ => Candidate.ofSource_remove hgone root s)
  · intro c hc
    obtain ⟨s, -, hc⟩ := List.mem_flatMap.1 hc
    exact Candidate.stands_of_mem_ofSource hgone.proper c hc
  · exact fun _ _ _ _ _ => .rfl

omit hgone in
theorem ofText_of_error {path shown : String} {layout : Layout} {text : List Char}
    {fault : Json.Fault} (h : Json.parse text = .error fault) :
    Catalog.ofText path shown layout text = .error (.parse shown (fault.message text)) := by
  unfold Catalog.ofText
  split
  · rename_i root hroot
    rw [h] at hroot
    contradiction
  · rename_i fault' hfault
    rw [h] at hfault
    rw [Except.error.inj hfault]

variable {text : List Char} {fault : Json.Fault} (hfile : tree.at? gone = some (.file (.text text)))
  (hparse : Json.parse text = .error fault)
include hfile hparse

omit hgone in
/-- What a malformed file is loaded as. -/
theorem load_of_isAt (root : String) {c : Candidate} (hc : c.Stands tree) (hat : c.IsAt gone) :
    ∃ path, c.path? = some path ∧
      c.load root = .error (.parse (display root path) (fault.message text)) := by
  cases c with
  | failed => contradiction
  | found layout place =>
      refine ⟨place.pathText, rfl, ?_⟩
      have hentry : place.entry = .file (.text text) :=
        Option.some.inj ((Place.Stands.at? hc hat).symm.trans hfile)
      rw [Candidate.load, hentry]
      exact ofText_of_error hparse

/-- **The catalogs** are the same without a file that is malformed. -/
theorem catalogs_remove :
    (Library.load (remove gone tree) root sources).catalogs =
      (Library.load tree root sources).catalogs := by
  rw [Library.load, Library.load, ← candidates, ← candidates, candidates_remove hgone]
  dsimp only
  rw [List.filterMap_map, List.filterMap_map, List.filterMap_filterMap]
  refine List.filterMap_congr fun c hc => ?_
  have hstands := stands_of_mem_candidates hgone.proper c hc
  cases hcounterpart : c.counterpart? (remove gone tree) with
  | none =>
      have hat := (Candidate.counterpart?_eq_none_iff hgone hstands).1 hcounterpart
      obtain ⟨_, -, hload⟩ := load_of_isAt hfile hparse root hstands hat
      rw [Function.comp_apply, hload]
      rfl
  | some c' =>
      rw [Option.bind_some, Function.comp_apply, Function.comp_apply,
        (Candidate.load_counterpart? hgone hstands hcounterpart root).2]

/-- **The failures** are those without the malformed file, and one for each path that it is found
by. -/
theorem failures_remove :
    (Library.load tree root sources).failures.Perm
      ((pathsTo tree root sources gone).map
          (fun path => .parse (display root path) (fault.message text)) ++
        (Library.load (remove gone tree) root sources).failures) := by
  rw [Library.load, Library.load, ← candidates, ← candidates, candidates_remove hgone, pathsTo]
  have hstands : ∀ c ∈ candidates tree root sources, c.Stands tree :=
    stands_of_mem_candidates hgone.proper
  generalize candidates tree root sources = cs at hstands
  dsimp only
  induction cs with
  | nil => exact .nil
  | cons c cs ih =>
      obtain ⟨hc, hcs⟩ := List.forall_mem_cons.1 hstands
      have ih := ih hcs
      cases hcounterpart : c.counterpart? (remove gone tree) with
      | none =>
          have hat := (Candidate.counterpart?_eq_none_iff hgone hc).1 hcounterpart
          obtain ⟨path, hpath, hload⟩ := load_of_isAt hfile hparse root hc hat
          have hfilter : (c :: cs).filter (·.IsAt gone) = c :: cs.filter (·.IsAt gone) :=
            List.filter_cons_of_pos (decide_eq_true hat)
          simp only [hfilter, List.map_cons, List.filterMap_cons, hload, hpath, hcounterpart]
          exact ih.cons _
      | some c' =>
          have hnot : ¬ c.IsAt gone := fun hat => by
            rw [(Candidate.counterpart?_eq_none_iff hgone hc).2 hat] at hcounterpart
            contradiction
          have hfilter : (c :: cs).filter (·.IsAt gone) = cs.filter (·.IsAt gone) :=
            List.filter_cons_of_neg (by simpa using hnot)
          rw [hfilter, List.filterMap_cons, hcounterpart, List.map_cons, List.map_cons,
            List.filterMap_cons, List.filterMap_cons,
            (Candidate.load_counterpart? hgone hc hcounterpart root).2]
          split
          · exact ih
          · exact (ih.cons _).trans List.perm_middle.symm

end removal

/-! ## sources inside the tree -/

/-- A source does not lead out of the tree: it is relative, and wherever a component of its pattern
may stand for two dots, there are names in front of it to lead back from. -/
def Source.StaysInside (root : String) (s : Source) : Prop :=
  isAbsolute (resolve root s.pattern) = false ∧
    ∀ qs ∈ (Glob.componentPatterns (resolve root s.pattern)).toOption,
      (Glob.leastDepth? 0 qs).isSome = true

/-- No source leads out of the tree. -/
def AllInside (root : String) (sources : List Source) : Prop :=
  ∀ s ∈ sources, s.StaysInside root

instance (root : String) (sources : List Source) : Decidable (AllInside root sources) :=
  inferInstanceAs (Decidable (∀ s ∈ sources, _ ∧ _))

/-! ## paths to one place -/

/-- All sources are relative and start with the same components, and nothing behind them stands for
two dots. -/
def AllAnchored (root : String) (sources : List Source) : Prop :=
  ∃ anchor, ∀ s ∈ sources, isAbsolute (resolve root s.pattern) = false ∧
    ∀ qs, Glob.componentPatterns (resolve root s.pattern) = .ok qs → Glob.Anchored anchor qs

/-- Relative sources start where the root is if no component of their patterns stands for two
dots. -/
theorem allAnchored_of_not_climbs {root : String} {sources : List Source}
    (hroot : ∀ c ∈ root.toList, Glob.Plain c)
    (hrelative : ∀ s ∈ sources, isAbsolute (resolve root s.pattern) = false)
    (hsources : ∀ s ∈ sources, ¬ Glob.Climbs s.pattern) : AllAnchored root sources :=
  ⟨steps root, fun s hs => ⟨hrelative s hs, fun _ hqs =>
    Glob.anchored_resolve hroot (hsources s hs) (hrelative s hs) hqs⟩⟩

theorem nodup_pathsTo (tree : Entry) (root : String) (sources : List Source)
    (names : List String) : (pathsTo tree root sources names).Nodup :=
  (Candidate.nodup_paths_firsts [] _).1.sublist (List.filter_sublist.filterMap _)

/-- The place of a candidate is below where all sources start. -/
theorem exists_below_of_mem_ofSource {tree : Entry} {root : String} {s : Source}
    {anchor : List Component}
    (hs : ∀ qs, Glob.componentPatterns (resolve root s.pattern) = .ok qs → Glob.Anchored anchor qs)
    {layout : Layout} {place : Place} (h : .found layout place ∈ Candidate.ofSource tree root s) :
    ∃ base, walk tree anchor = some base ∧ Glob.Below base place := by
  rw [Candidate.ofSource] at h
  split at h
  · rename_i places hplaces
    obtain ⟨p, hp, heq⟩ := List.mem_map.1 h
    obtain ⟨-, rfl⟩ := Candidate.found.inj heq
    obtain ⟨-, qs, hqs, hin⟩ := Glob.exists_of_mem_find hplaces (List.mem_filter.1 hp).1
    exact Glob.below_of_mem_expand_anchored (hs qs hqs) hin
  · simp at h

/-- Below one place, a place is told apart by its names. -/
theorem path_eq_of_below {base p q : Place} {names : List String} (hp : Glob.Below base p)
    (hq : Glob.Below base q) (hlocation : p.location? = some names)
    (hlocation' : q.location? = some names) : p.path = q.path := by
  obtain ⟨below, hp⟩ := hp
  obtain ⟨below', hq⟩ := hq
  rw [Place.location?, hp, locationOf_append_names] at hlocation
  rw [Place.location?, hq, locationOf_append_names] at hlocation'
  obtain ⟨above, habove, rfl⟩ := Option.map_eq_some_iff.1 hlocation
  obtain ⟨above', habove', heq⟩ := Option.map_eq_some_iff.1 hlocation'
  obtain rfl := Option.some.inj (habove.symm.trans habove')
  rw [hp, hq, List.append_cancel_left heq]

/-- **A place is found by one path** if all sources are relative and nothing stands for two dots
behind where they start. -/
theorem length_pathsTo_le_one {tree : Entry} {root : String} {sources : List Source}
    (h : AllAnchored root sources) (names : List String) :
    (pathsTo tree root sources names).length ≤ 1 := by
  obtain ⟨anchor, h⟩ := h
  have hbelow {path : String} (hpath : path ∈ pathsTo tree root sources names) :
      ∃ base place, walk tree anchor = some base ∧ Glob.Below base place ∧
        place.location? = some names ∧ place.pathText = path := by
    obtain ⟨c, hc, hpath⟩ := List.mem_filterMap.1 hpath
    obtain ⟨hc, hat⟩ := List.mem_filter.1 hc
    obtain ⟨s, hs, hc⟩ := List.mem_flatMap.1 ((Candidate.sublist_firsts _ _).subset hc)
    cases c with
    | failed => contradiction
    | found layout place =>
        obtain ⟨base, hbase, hplace⟩ := exists_below_of_mem_ofSource (h s hs).2 hc
        exact ⟨base, place, hbase, hplace, of_decide_eq_true hat, Option.some.inj hpath⟩
  have hone : ∀ path ∈ pathsTo tree root sources names,
      ∀ path' ∈ pathsTo tree root sources names, path = path' := by
    intro path hpath path' hpath'
    obtain ⟨base, place, hbase, hplace, hlocation, rfl⟩ := hbelow hpath
    obtain ⟨base', place', hbase', hplace', hlocation', rfl⟩ := hbelow hpath'
    obtain rfl := Option.some.inj (hbase.symm.trans hbase')
    rw [pathText, pathText, path_eq_of_below hplace hplace' hlocation hlocation']
  have hnodup := nodup_pathsTo tree root sources names
  cases hpaths : pathsTo tree root sources names with
  | nil => exact Nat.zero_le 1
  | cons path rest =>
      cases rest with
      | nil => exact Nat.le_refl 1
      | cons path' paths =>
          rw [hpaths] at hnodup hone
          have heq := hone path List.mem_cons_self path' (List.mem_cons_of_mem _ List.mem_cons_self)
          exact absurd List.mem_cons_self (heq ▸ (List.nodup_cons.1 hnodup).1)

end LocaleAudit.Locale
