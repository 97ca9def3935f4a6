import LocaleAudit.Proofs.FileTree.Place
import Mathlib.Data.List.Basic

/-!
# LocaleAudit.Proofs.FileTree.Removal

Places of a tree in the same tree without a file.  A place other than that of the file has its
counterpart, which is found by the same path; what can be found from a place is then found from its
counterpart as well, and nothing else is.

* `thinned_of_walk`, `walk_remove_eq` — a path, and what it leads to, without the file;
* `Follows` — what is found from a place, without the file;
* `follows_step?`, `follows_children`, `follows_descendants` — the ways to find places.
-/

namespace LocaleAudit.Place

open LocaleAudit.Path Entry

/-! ## paths -/

section paths

variable {tree : Entry} {path : List Component} {gone : List String} (hgone : Removal tree gone)
include hgone

/-- The path of the file leads nowhere any more. -/
theorem walk_remove (hpath : locationOf path = some gone) :
    walk (remove gone tree) path = none := by
  cases hwalk : walk (remove gone tree) path with
  | none => rfl
  | some p =>
      have htrail := (trail_of_walk hwalk).1
      rw [hpath] at htrail
      exact absurd htrail.at? (by rw [at?_remove hgone]; exact nofun)

/-- **A place and its counterpart**: they have one path, and only the directory of the file has one
name less. -/
theorem thinned_of_walk {p p' : Place} (hp : walk tree path = some p)
    (hp' : walk (remove gone tree) path = some p') :
    p'.path = p.path ∧ Thinned ((locationOf path).getD []) gone p.entry p'.entry := by
  obtain ⟨htrail, hpath⟩ := trail_of_walk hp
  obtain ⟨htrail', hpath'⟩ := trail_of_walk hp'
  refine ⟨hpath'.trans hpath.symm, ?_⟩
  cases hlocation : locationOf path with
  | none =>
      rw [hlocation] at htrail htrail'
      rw [htrail.entry_of_outside, htrail'.entry_of_outside]
      exact ⟨rfl, rfl⟩
  | some names =>
      rw [hlocation] at htrail htrail'
      have hne : names ≠ gone := by
        rintro rfl
        rw [walk_remove hgone hlocation] at hp'
        contradiction
      have hrel := rel_at?_remove hgone hne
      rw [htrail.at?, htrail'.at?] at hrel
      cases hrel with
      | some hthinned => exact hthinned

/-- **A path that does not lead to the file** leads to a place with the file exactly if it does
without it. -/
theorem isSome_walk_remove (hpath : locationOf path ≠ some gone) :
    (walk (remove gone tree) path).isSome = (walk tree path).isSome := by
  induction path using List.reverseRecOn with
  | nil => rfl
  | append_singleton path c ih =>
      rw [walk_concat, walk_concat]
      by_cases hfile : locationOf path = some gone
      · -- nothing is behind a file
        rw [walk_remove hgone hfile]
        cases hp : walk tree path with
        | none => rfl
        | some p =>
            have htrail := (trail_of_walk hp).1
            rw [hfile] at htrail
            obtain ⟨content, hcontent⟩ := hgone.file
            have hentry : p.entry = .file content :=
              Option.some.inj (htrail.at?.symm.trans hcontent)
            rw [Option.bind_some, Option.bind_none, isSome_step?, isDirectory, hentry]
            cases c <;> rfl
      · have hsame := ih hfile
        cases hp : walk tree path with
        | none =>
            rw [hp, Option.isSome_none, Option.isSome_eq_false_iff, Option.isNone_iff_eq_none]
              at hsame
            rw [hsame]
        | some p =>
            rw [hp] at hsame
            obtain ⟨p', hp'⟩ := Option.isSome_iff_exists.1 hsame
            have hthinned := (thinned_of_walk hgone hp hp').2
            rw [hp', Option.bind_some, Option.bind_some, isSome_step?, isSome_step?, isDirectory,
              isDirectory, hthinned.isDirectory]
            cases c with
            | root => rfl
            | current => rfl
            | parent => rfl
            | name n =>
                rw [Bool.eq_iff_iff, isSome_child?_iff, isSome_child?_iff, hthinned.names,
                  List.mem_filter, decide_eq_true_iff]
                refine and_iff_left_of_imp fun hn => ?_
                have htrail := (trail_of_walk hp).1
                rw [locationOf_concat] at hpath
                cases hlocation : locationOf path with
                | none =>
                    rw [hlocation] at htrail
                    rw [htrail.entry_of_outside] at hn
                    contradiction
                | some names =>
                    rw [hlocation] at hpath
                    exact fun heq => hpath (congrArg some heq)

/-- The place with the path of a place in another tree, if there is one. -/
def counterpart? (other : Entry) (p : Place) : Option Place := walk other p.path

omit hgone in
theorem walk_filter {p : Place} (h : walk tree path = some p) :
    walk tree (path.filter (· ≠ .current)) = some p :=
  (trail_of_walk h).2 ▸ Stands.of_walk h

/-- **A place and its counterpart**, once more. -/
theorem thinned_of_counterpart? {p p' : Place} (hp : Stands tree p)
    (hp' : p.counterpart? (remove gone tree) = some p') :
    p'.path = p.path ∧ Thinned (p.location?.getD []) gone p.entry p'.entry :=
  thinned_of_walk hgone hp hp'

/-- A place has no counterpart exactly if it is that of the file. -/
theorem counterpart?_eq_none_iff {p : Place} (hp : Stands tree p) :
    p.counterpart? (remove gone tree) = none ↔ p.location? = some gone := by
  constructor
  · intro hnone
    by_contra hlocation
    have hsame := isSome_walk_remove hgone hlocation
    rw [← counterpart?, hnone, hp] at hsame
    contradiction
  · exact walk_remove hgone

/-- **A path without the file** leads to the counterpart of what it leads to with the file. -/
theorem walk_remove_eq :
    walk (remove gone tree) path = (walk tree path).bind (counterpart? (remove gone tree)) := by
  by_cases hfile : locationOf path = some gone
  · rw [walk_remove hgone hfile]
    cases hp : walk tree path with
    | none => rfl
    | some p =>
        rw [Option.bind_some, counterpart?, (trail_of_walk hp).2, walk_remove hgone]
        rwa [locationOf_filter]
  · have hsame := isSome_walk_remove hgone hfile
    cases hp : walk tree path with
    | none =>
        rw [hp, Option.isSome_none, Option.isSome_eq_false_iff, Option.isNone_iff_eq_none] at hsame
        exact hsame
    | some p =>
        rw [hp] at hsame
        obtain ⟨p', hp'⟩ := Option.isSome_iff_exists.1 hsame
        rw [hp', Option.bind_some, counterpart?, (trail_of_walk hp).2, walk_filter hp']

theorem find?_remove {text : String} :
    find? (remove gone tree) text = (find? tree text).bind (counterpart? (remove gone tree)) :=
  walk_remove_eq hgone

end paths

/-! ## what is found from a place -/

/-- The counterparts of what is found from a place are what is found from the counterpart of the
place. -/
def Follows (other : Entry) (found : Place → List Place) (p : Place) : Prop :=
  (found p).filterMap (counterpart? other) = (p.counterpart? other).toList.flatMap found

/-- A property that counterparts share may be asked for before or after. -/
theorem filterMap_filter {other : Entry} {test : Place → Bool} {qs : List Place}
    (htest : ∀ q ∈ qs, ∀ q', q.counterpart? other = some q' → test q' = test q) :
    (qs.filter test).filterMap (counterpart? other) =
      (qs.filterMap (counterpart? other)).filter test := by
  induction qs with
  | nil => rfl
  | cons q qs ih =>
      obtain ⟨hq, hqs⟩ := List.forall_mem_cons.1 htest
      rw [List.filterMap_cons, List.filter_cons]
      cases hcounterpart : q.counterpart? other with
      | none => split <;> simp [hcounterpart, ih hqs]
      | some q' =>
          rw [List.filter_cons, hq q' hcounterpart, ← ih hqs]
          split <;> simp [hcounterpart]

namespace Follows

variable {other : Entry} {f g : Place → List Place} {p : Place}

theorem nil : Follows other (fun _ => []) p := by simp [Follows]

theorem self : Follows other (fun p => [p]) p := by
  rw [Follows, List.filterMap_cons]
  cases p.counterpart? other <;> rfl

theorem append (hf : Follows other f p) (hg : Follows other g p) :
    Follows other (fun p => f p ++ g p) p := by
  rw [Follows, List.filterMap_append, hf, hg]
  cases p.counterpart? other <;> simp

/-- What is found from what is found. -/
theorem flatMap (hf : Follows other f p) (hg : ∀ q ∈ f p, Follows other g q) :
    Follows other (fun p => (f p).flatMap g) p :=
  calc ((f p).flatMap g).filterMap (counterpart? other)
    _ = (f p).flatMap fun q => (g q).filterMap (counterpart? other) := List.filterMap_flatMap
    _ = (f p).flatMap fun q => (q.counterpart? other).toList.flatMap g :=
        List.flatMap_congr fun q hq => hg q hq
    _ = ((f p).filterMap (counterpart? other)).flatMap g := by
        rw [List.filterMap_eq_flatMap_toList, List.flatMap_assoc]
    _ = (p.counterpart? other).toList.flatMap fun p => (f p).flatMap g := by
        rw [hf, List.flatMap_assoc]

/-- What is found and has a property that counterparts share. -/
theorem filter {test : Place → Bool} (hf : Follows other f p)
    (htest : ∀ q ∈ f p, ∀ q', q.counterpart? other = some q' → test q' = test q) :
    Follows other (fun p => (f p).filter test) p := by
  rw [Follows, filterMap_filter htest, hf]
  cases p.counterpart? other <;> simp

end Follows

/-! ## the ways to find places -/

theorem flatMap_filter_of_eq_nil {α β : Type} {as : List α} {test : α → Bool} {f : α → List β}
    (h : ∀ a ∈ as, test a = false → f a = []) : (as.filter test).flatMap f = as.flatMap f := by
  induction as with
  | nil => rfl
  | cons a as ih =>
      obtain ⟨ha, has⟩ := List.forall_mem_cons.1 h
      rw [List.filter_cons, List.flatMap_cons, ← ih has]
      cases htest : test a with
      | true => simp
      | false => simp [ha htest]

section removal

variable {tree : Entry} {p : Place} {gone : List String} (hgone : Removal tree gone)
include hgone

/-- One more component of a path. -/
theorem follows_step? (hp : Stands tree p) (c : Component) :
    Follows (remove gone tree) (fun p => (p.step? c).toList) p := by
  have hstep : (p.step? c).bind (counterpart? (remove gone tree)) =
      (p.counterpart? (remove gone tree)).bind (·.step? c) := by
    have hwalk : walk (remove gone tree) (p.path ++ [c]) = _ := walk_remove_eq hgone
    rw [walk_concat, walk_concat, hp, Option.bind_some] at hwalk
    exact hwalk.symm
  calc (p.step? c).toList.filterMap (counterpart? (remove gone tree))
    _ = ((p.step? c).bind (counterpart? (remove gone tree))).toList := by
        cases p.step? c with
        | none => rfl
        | some q => cases h : q.counterpart? (remove gone tree) <;> simp [h]
    _ = (p.counterpart? (remove gone tree)).toList.flatMap fun p => (p.step? c).toList := by
        rw [hstep]
        cases p.counterpart? (remove gone tree) <;> simp

/-- The entries of a directory. -/
theorem follows_children (hp : Stands tree p) : Follows (remove gone tree) children p := by
  have hnames (n : String) := follows_step? hgone hp (.name n)
  rw [Follows, children_eq (hp.entry_proper hgone.proper), List.filterMap_flatMap,
    List.flatMap_congr fun n _ => hnames n]
  cases hp' : p.counterpart? (remove gone tree) with
  | none => simp
  | some p' =>
      have hstands : Stands (remove gone tree) p' := .of_walk hp'
      have hthinned := (thinned_of_walk hgone hp hp').2
      simp only [Option.toList_some, List.flatMap_singleton]
      rw [children_eq (hstands.entry_proper hgone.proper_remove), hthinned.names]
      refine (flatMap_filter_of_eq_nil fun n _ hn => ?_).symm
      have hnone : n ∉ p'.entry.entries.map (·.1) := by
        rw [hthinned.names, List.mem_filter, hn]
        exact fun h => Bool.false_ne_true h.2
      rw [← isSome_child?_iff, Option.not_isSome_iff_eq_none] at hnone
      rw [step?, hnone]
      rfl

/-- All that is below a place. -/
theorem follows_descendants (hp : Stands tree p) :
    Follows (remove gone tree) descendants p := by
  -- the descendants of an entry are those of smaller entries
  induction he : p.entry using Entry.member_induction generalizing p with
  | step e ih =>
      have hbelow (q : Place) (hq : q ∈ p.children) :
          Follows (remove gone tree) (fun q => q :: q.descendants) q := by
        have hstands := hp.of_mem_children hgone.proper q hq
        obtain ⟨m, hm, rfl⟩ := List.mem_map.1 hq
        exact Follows.self.append (ih m (he ▸ hm) hstands rfl)
      have hall := (follows_children hgone hp).flatMap hbelow
      rwa [← funext fun p => descendants_eq (p := p)] at hall

end removal

end LocaleAudit.Place
