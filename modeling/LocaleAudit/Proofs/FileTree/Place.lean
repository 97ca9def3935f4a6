import LocaleAudit.Proofs.FileTree.Entry
import Mathlib.Data.List.Basic
import Mathlib.Data.List.Induction

/-!
# LocaleAudit.Proofs.FileTree.Place

Places of a tree.  A path leads through names from the tree on, or out of it, and what is around a
place is what these names say.

* `trail_of_walk` — what is around a place;
* `Stands.at?` — the entry at a place;
* `Stands.eq_of_path` — places are told apart by their paths;
* `Stands.of_mem_descendants` — what is below a place that stands in a tree.
-/

namespace LocaleAudit.Place

open LocaleAudit.Path Entry

/-! ## walks -/

/-- The place that the components of a path lead to, if there is one. -/
def walk (tree : Entry) (path : List Component) : Option Place :=
  path.foldlM (·.step? ·) (start tree)

/-- Where one more component leads to, in names from the tree on; nothing if that is outside. -/
def locate (names? : Option (List String)) : Component → Option (List String)
  | .name n => names?.map (· ++ [n])
  | .parent => names?.bind fun names => if names = [] then none else some names.dropLast
  | .root | .current => names?

/-- Where a path leads to, in names from the tree on. -/
def locationOf (path : List Component) : Option (List String) := path.foldl locate (some [])

/-- Where a place is, in names from the tree on. -/
def location? (p : Place) : Option (List String) := locationOf p.path

/-- What is around the place that names lead to, from the inside out. -/
inductive Trail (tree : Entry) : Option (List String) → List Entry → Prop
  | outside : Trail tree none []
  | start : Trail tree (some []) [tree]
  | step {names : List String} {trail : List Entry} {name : String} {e : Entry}
      (h : Trail tree (some names) trail) (hat : tree.at? (names ++ [name]) = some e) :
      Trail tree (some (names ++ [name])) (e :: trail)

/-- A place stands in a tree if its path leads to it. -/
def Stands (tree : Entry) (p : Place) : Prop := walk tree p.path = some p

variable {tree : Entry} {path : List Component} {c : Component} {p q : Place} {name : String}
  {names : List String}

theorem find?_eq_walk {text : String} : find? tree text = walk tree (components text) := rfl

theorem walk_concat : walk tree (path ++ [c]) = (walk tree path).bind (·.step? c) := by
  rw [walk, List.foldlM_append, ← walk]
  refine Option.bind_congr fun p _ => ?_
  simp

theorem locationOf_concat : locationOf (path ++ [c]) = locate (locationOf path) c := by
  rw [locationOf, List.foldl_append, List.foldl_cons, List.foldl_nil, ← locationOf]

theorem locationOf_filter : locationOf (path.filter (· ≠ .current)) = locationOf path := by
  induction path using List.reverseRecOn with
  | nil => rfl
  | append_singleton path c ih =>
      rw [List.filter_append, locationOf_concat]
      by_cases hc : c = .current
      · subst hc
        simpa [locate] using ih
      · simpa [hc, locationOf_concat] using congrArg (locate · c) ih

theorem locationOf_append_names (path : List Component) (names : List String) :
    locationOf (path ++ names.map .name) = (locationOf path).map (· ++ names) := by
  induction names generalizing path with
  | nil => simp
  | cons name names ih =>
      rw [List.map_cons, List.append_cons, ih, locationOf_concat, locate, Option.map_map]
      refine congrArg (Option.map · _) (funext fun above => ?_)
      rw [Function.comp_apply, List.append_assoc, List.singleton_append]

/-- One step from a place to another. -/
inductive Step (p : Place) : Component → Place → Prop
  | current (h : p.isDirectory = true) : Step p .current p
  | parent (h : p.isDirectory = true) : Step p .parent p.above
  | name {n : String} {e : Entry} (h : p.entry.child? n = some e) : Step p (.name n) (p.below n e)

theorem step_of_step? (h : p.step? c = some q) : Step p c q := by
  cases c with
  | root => contradiction
  | current =>
      obtain ⟨hdirectory, rfl⟩ : p.isDirectory = true ∧ p = q := by simpa [step?] using h
      exact .current hdirectory
  | parent =>
      obtain ⟨hdirectory, rfl⟩ : p.isDirectory = true ∧ p.above = q := by simpa [step?] using h
      exact .parent hdirectory
  | name n =>
      obtain ⟨e, he, rfl⟩ := Option.map_eq_some_iff.1 h
      exact .name he

theorem isSome_step? : (p.step? c).isSome = match c with
    | .root => false
    | .current | .parent => p.isDirectory
    | .name n => (p.entry.child? n).isSome := by
  cases c with
  | root => rfl
  | current => cases h : p.isDirectory <;> simp [step?, h]
  | parent => cases h : p.isDirectory <;> simp [step?, h]
  | name n => rw [step?, Option.isSome_map]

theorem Trail.tail {location : Option (List String)} {trail : List Entry}
    (h : Trail tree location trail) : Trail tree (locate location .parent) trail.tail := by
  cases h with
  | outside => exact .outside
  | start => exact .outside
  | step h => simpa [locate] using h

theorem Trail.at? (h : Trail tree (some names) p.trail) : tree.at? names = some p.entry := by
  obtain ⟨path, trail⟩ := p
  cases h with
  | start => rfl
  | step _ hat => exact hat

/-- What is around a place, or above the tree, is a directory. -/
theorem Trail.isDirectory_above {location : Option (List String)}
    (h : Trail tree location p.trail) : p.above.isDirectory = true := by
  obtain ⟨path, trail⟩ := p
  cases h with
  | outside => rfl
  | start => rfl
  | @step names trail name e h hat =>
      have haround := Trail.at? (p := ⟨[], trail⟩) h
      rw [at?_concat, haround, Option.bind_some] at hat
      obtain ⟨es, hes⟩ := exists_directory_of_child? hat
      exact congrArg Entry.isDirectory hes

theorem Trail.entry_of_outside (h : Trail tree none p.trail) : p.entry = .directory [] := by
  obtain ⟨path, trail⟩ := p
  cases h
  rfl

/-- **What is around a place** is what the names say that its path leads through. -/
theorem trail_of_walk (h : walk tree path = some p) :
    Trail tree (locationOf path) p.trail ∧ p.path = path.filter (· ≠ .current) := by
  induction path using List.reverseRecOn generalizing p with
  | nil =>
      obtain rfl := Option.some.inj h
      exact ⟨.start, rfl⟩
  | append_singleton path c ih =>
      rw [walk_concat] at h
      obtain ⟨q, hq, hstep⟩ := Option.bind_eq_some_iff.1 h
      obtain ⟨htrail, hpath⟩ := ih hq
      rw [locationOf_concat, List.filter_append, ← hpath]
      cases step_of_step? hstep with
      | current => exact ⟨htrail, by simp⟩
      | parent => exact ⟨htrail.tail, by simp [above]⟩
      | name he =>
          refine ⟨?_, by simp [below]⟩
          cases hlocation : locationOf path with
          | none =>
              rw [hlocation] at htrail
              rw [htrail.entry_of_outside] at he
              contradiction
          | some names =>
              rw [hlocation] at htrail
              exact .step htrail (by rw [at?_concat, htrail.at?]; exact he)

theorem Stands.of_walk (h : walk tree path = some p) : Stands tree p := by
  rw [Stands, (trail_of_walk h).2]
  induction path using List.reverseRecOn generalizing p with
  | nil => exact h
  | append_singleton path c ih =>
      rw [walk_concat] at h
      obtain ⟨q, hq, hstep⟩ := Option.bind_eq_some_iff.1 h
      by_cases hc : c = .current
      · subst hc
        cases step_of_step? hstep
        simpa using ih hq
      · rw [List.filter_append, show [c].filter (· ≠ .current) = [c] by simp [hc], walk_concat,
          ih hq]
        exact hstep

namespace Stands

theorem start : Stands tree (start tree) := rfl

/-- What is around a place that stands in a tree. -/
theorem trail (h : Stands tree p) : Trail tree p.location? p.trail := (trail_of_walk h).1

theorem step? (h : Stands tree p) (hstep : p.step? c = some q) : Stands tree q := by
  have hwalk : walk tree (p.path ++ [c]) = some q := by
    rw [walk_concat, h, Option.bind_some, hstep]
  exact .of_walk hwalk

theorem at? (h : Stands tree p) (hlocation : p.location? = some names) :
    tree.at? names = some p.entry := by
  have htrail := h.trail
  rw [hlocation] at htrail
  exact htrail.at?

theorem entry_of_outside (h : Stands tree p) (hlocation : p.location? = none) :
    p.entry = .directory [] := by
  have htrail := h.trail
  rw [hlocation] at htrail
  exact htrail.entry_of_outside

theorem entry_proper (h : Stands tree p) (htree : tree.Proper) : p.entry.Proper := by
  cases hlocation : p.location? with
  | none =>
      rw [h.entry_of_outside hlocation]
      exact .directory .nil (List.forall_mem_nil _) (List.forall_mem_nil _)
  | some names => exact htree.at? (h.at? hlocation)

/-- Places are told apart by their paths. -/
theorem eq_of_path (hp : Stands tree p) (hq : Stands tree q) (h : p.path = q.path) : p = q := by
  rw [Stands, h, hq] at hp
  exact (Option.some.inj hp).symm

/-- A file is reached by its name, unless the tree is that file. -/
theorem eq_start_or_exists_name (h : Stands tree p) (hfile : p.isDirectory = false) :
    p = Place.start tree ∨ ∃ above name, p.path = above ++ [.name name] := by
  rcases List.eq_nil_or_concat' p.path with hnil | ⟨above, c, hpath⟩
  · exact .inl (h.eq_of_path .start hnil)
  · have hwalk := h
    rw [Stands, hpath, walk_concat] at hwalk
    obtain ⟨q, hq, hstep⟩ := Option.bind_eq_some_iff.1 hwalk
    cases step_of_step? hstep with
    | current hdirectory =>
        rw [hdirectory] at hfile
        contradiction
    | parent =>
        rw [(trail_of_walk hq).1.isDirectory_above] at hfile
        contradiction
    | @name n => exact .inr ⟨above, n, hpath⟩

end Stands

/-! ## what is in directories -/

/-- The entries of a directory are found by their names. -/
theorem children_eq {p : Place} (h : p.entry.Proper) :
    p.children = (p.entry.entries.map (·.1)).flatMap fun n => (p.step? (.name n)).toList := by
  have hstep (m : String × Entry) (hm : m ∈ p.entry.entries) :
      (p.step? (.name m.1)).toList = [p.below m.1 m.2] := by
    rw [step?, h.child?_of_mem hm]
    rfl
  rw [children, List.flatMap_map, List.flatMap_congr hstep]
  exact List.map_eq_flatMap

theorem descendantsAmong_eq {p : Place} {es : List (String × Entry)} :
    descendantsAmong p es =
      (es.map fun (n, e) => p.below n e).flatMap fun q => q :: q.descendants := by
  induction es with
  | nil => rfl
  | cons head es ih =>
      obtain ⟨n, e⟩ := head
      rw [descendantsAmong, ih, List.map_cons, List.flatMap_cons, List.cons_append]
      rfl

/-- What is below a place is what its entries are and what is below them. -/
theorem descendants_eq {p : Place} :
    p.descendants = p.children.flatMap fun q => q :: q.descendants := by
  rw [descendants, children]
  cases h : p.entry with
  | file content => rfl
  | directory es => exact descendantsAmong_eq

/-- The entries of a directory stand in the tree. -/
theorem Stands.of_mem_children (h : Stands tree p) (htree : tree.Proper) :
    ∀ q ∈ p.children, Stands tree q := by
  intro q hq
  rw [children_eq (h.entry_proper htree)] at hq
  obtain ⟨n, -, hq⟩ := List.mem_flatMap.1 hq
  exact h.step? (Option.mem_toList.1 hq)

/-- All that is below a place stands in the tree. -/
theorem Stands.of_mem_descendants (h : Stands tree p) (htree : tree.Proper) :
    ∀ q ∈ p.descendants, Stands tree q := by
  intro q hq
  induction he : p.entry using Entry.member_induction generalizing p with
  | step e ih =>
      rw [descendants_eq] at hq
      obtain ⟨r, hr, hq⟩ := List.mem_flatMap.1 hq
      have hstands := h.of_mem_children htree r hr
      rcases List.mem_cons.1 hq with rfl | hq
      · exact hstands
      · obtain ⟨m, hm, rfl⟩ := List.mem_map.1 hr
        exact ih m (he ▸ hm) hstands hq rfl

end LocaleAudit.Place
