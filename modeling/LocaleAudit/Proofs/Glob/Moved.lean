import LocaleAudit.Proofs.Glob.Pattern
import LocaleAudit.Proofs.Glob.Resolve

/-!
# LocaleAudit.Proofs.Glob.Moved

The places that patterns stand for in a tree, and in the same tree in a directory of another one.
A pattern behind the path of that directory finds the same places there, if the path is read as a
pattern for nothing else.

* `Place.Moved` — a place of a tree, and the place where it is if the tree is in a directory;
* `forall₂_expand` — patterns none of which stands for two dots lead to the same places;
* `Rooted`, `rooted_of_plain` — roots that are patterns for themselves alone;
* `foundAlike_find` — a pattern behind such a root.
-/

namespace LocaleAudit

open LocaleAudit.Path

/-- What the elements of a list stand for corresponds if it does for each of them. -/
theorem forall₂_flatMap {α β γ : Type} {R : β → γ → Prop} {f : α → List β} {g : α → List γ}
    {as : List α} (h : ∀ a ∈ as, List.Forall₂ R (f a) (g a)) :
    List.Forall₂ R (as.flatMap f) (as.flatMap g) := by
  induction as with
  | nil => exact .nil
  | cons a as ih =>
      obtain ⟨ha, has⟩ := List.forall_mem_cons.1 h
      exact List.rel_append ha (ih has)

/-! ## moved places -/

namespace Place

/-- A place that has been moved, together with the tree that it is in, behind another place: its
path has become longer, and the entry is the same. -/
structure Moved (base p q : Place) : Prop where
  /-- The path there. -/
  path : p.path = base.path ++ q.path
  /-- What is there. -/
  entry : p.entry = q.entry

/-- A place that has been moved, and the last step to which was the same before. -/
structure Moved.Alike (base p q : Place) : Prop extends Moved base p q where
  /-- The name of the entry. -/
  name : p.name? = q.name?

variable {base p q : Place}

theorem Moved.isDirectory (h : Moved base p q) : p.isDirectory = q.isDirectory :=
  congrArg Entry.isDirectory h.entry

theorem moved_start {tree : Entry} (h : base.entry = tree) : Moved base base (start tree) :=
  ⟨(List.append_nil _).symm, h⟩

theorem Moved.below (h : Moved base p q) (name : String) (e : Entry) :
    Moved.Alike base (p.below name e) (q.below name e) where
  path := by rw [Place.below, Place.below, h.path, List.append_assoc]
  entry := rfl
  name := by simp [Place.below, name?]

theorem forall₂_step? (h : Moved base p q) {c : Component} (hc : c ≠ .parent) :
    List.Forall₂ (Moved base) (p.step? c).toList (q.step? c).toList := by
  cases c with
  | root => exact .nil
  | parent => contradiction
  | current =>
      rw [step?, step?, h.isDirectory]
      split
      · exact .cons h .nil
      · exact .nil
  | name n =>
      rw [step?, step?, h.entry]
      cases q.entry.child? n with
      | none => exact .nil
      | some e => exact .cons (h.below n e).toMoved .nil

theorem forall₂_children (h : Moved base p q) :
    List.Forall₂ (Moved.Alike base) p.children q.children := by
  rw [children, children, h.entry, List.forall₂_map_left_iff, List.forall₂_map_right_iff,
    List.forall₂_same]
  exact fun m _ => h.below m.1 m.2

theorem forall₂_descendants (h : Moved base p q) :
    List.Forall₂ (Moved.Alike base) p.descendants q.descendants := by
  induction he : q.entry using Entry.member_induction generalizing p q with
  | step e ih =>
      rw [descendants_eq, descendants_eq, children, children, h.entry, he, List.flatMap_map,
        List.flatMap_map]
      refine forall₂_flatMap fun m hm => ?_
      exact .cons (h.below m.1 m.2) (ih m hm (h.below m.1 m.2).toMoved rfl)

end Place

namespace Glob

open Place Entry

variable {base p p' : Place}

/-! ## what patterns lead to -/

theorem forall₂_filter_names {ps ps' : List Place} (h : List.Forall₂ (Moved.Alike base) ps ps')
    (q : Pattern) : List.Forall₂ (Moved base) (ps.filter q.names) (ps'.filter q.names) := by
  have hnames (r r' : Place) (hr : Moved.Alike base r r') : q.names r = q.names r' := by
    rw [Pattern.names, Pattern.names, hr.name]
  exact (List.rel_filter (fun r r' hr => Bool.eq_iff_iff.1 (hnames r r' hr)) h).imp
    fun _ _ hr => hr.toMoved

theorem literalComponent_ne_parent {text : List Char} (h : text ≠ ['.', '.']) :
    literalComponent text ≠ .parent := by
  rw [literalComponent, if_neg h]
  split <;> simp

theorem forall₂_matched {q : Pattern} (hq : q.climbs = false) (h : Moved base p p')
    (byAny : Bool) : List.Forall₂ (Moved base) (matched byAny q p) (matched byAny q p') := by
  rw [matched, matched]
  split
  · exact forall₂_filter_names (forall₂_descendants h) q
  · rw [Pattern.climbs] at hq
    cases hliteral : q.literal? with
    | some text =>
        rw [hliteral] at hq
        exact forall₂_step? h (literalComponent_ne_parent (of_decide_eq_false hq))
    | none =>
        rw [hliteral] at hq
        dsimp only at hq ⊢
        rw [wildcardSteps_eq, wildcardSteps_eq, hq, if_neg Bool.false_ne_true,
          if_neg Bool.false_ne_true, List.nil_append, List.nil_append]
        refine List.rel_append ?_ (forall₂_filter_names (forall₂_children h) q)
        split
        · exact forall₂_step? h (by decide : Component.current ≠ .parent)
        · exact .nil

/-- **Patterns none of which stands for two dots** lead to the same places of a tree that has been
moved. -/
theorem forall₂_expand {qs : List Pattern} (hqs : ∀ q ∈ qs, q.climbs = false) (h : Moved base p p')
    (byAny : Bool) : List.Forall₂ (Moved base) (expand byAny qs p) (expand byAny qs p') := by
  induction qs generalizing byAny p p' with
  | nil =>
      rw [expand, expand]
      split
      · have hall := (forall₂_descendants h).imp fun _ _ hr => hr.toMoved
        exact List.rel_filter (fun r r' hr => Bool.eq_iff_iff.1 hr.isDirectory) hall
      · exact .cons h .nil
  | cons q qs ih =>
      obtain ⟨hq, hqs⟩ := List.forall_mem_cons.1 hqs
      rw [expand_cons, expand_cons]
      split
      · exact ih hqs h true
      · exact List.rel_flatMap (forall₂_matched hq h byAny) fun r r' hr => ih hqs hr false

/-- What patterns behind others lead to; two stars at the end of the first ones would change what
the others stand for. -/
theorem expand_append {qs qs' : List Pattern} (hlast : qs.getLast? ≠ some [.anyDirectories])
    {byAny : Bool} (hany : byAny = true → qs ≠ []) (p : Place) :
    expand byAny (qs ++ qs') p = (expand byAny qs p).flatMap (expand false qs') := by
  induction qs generalizing byAny p with
  | nil =>
      have hnot : byAny = false := Bool.eq_false_iff.2 fun htrue => hany htrue rfl
      rw [hnot, List.nil_append, expand, if_neg Bool.false_ne_true, List.flatMap_singleton]
  | cons q qs ih =>
      have hlast' : qs.getLast? ≠ some [.anyDirectories] := by
        cases qs with
        | nil => simp
        | cons r qs => rwa [List.getLast?_cons_cons] at hlast
      rw [List.cons_append, expand_cons, expand_cons]
      split
      · rename_i hstars
        refine ih hlast' (fun _ hnil => hlast ?_) p
        rw [hnil, hstars]
        rfl
      · rw [List.flatMap_assoc]
        exact List.flatMap_congr fun r _ => ih hlast' (absurd · Bool.false_ne_true) r

/-! ## roots -/

/-- A dot leads to where it starts. -/
theorem expand_dot (p : Place) :
    expand false [[.char '.']] p = if p.isDirectory then [p] else [] := by
  rw [expand_cons, if_neg (by decide)]
  change ((p.step? .current).toList).flatMap (expand false []) = _
  rw [step?]
  split
  · rfl
  · rfl

/-- A dot stands for where it starts. -/
theorem find_dot (tree : Entry) :
    find tree "." = .ok (if (start tree).isDirectory then [start tree] else []) := by
  have hpatterns : componentPatterns "." = .ok [[.char '.']] := by decide +kernel
  have habsolute : isAbsolute "." = false := by decide
  rw [find_eq, hpatterns, habsolute, ← expand_dot]
  rfl

/-! ## patterns behind a root -/

variable {outer tree : Entry} {root pattern : String}

/-- What a pattern behind a root stands for is what the patterns of the components of both lead to,
one by one. -/
theorem find_resolve (hroot : isAbsolute root = false) (hpattern : isAbsolute pattern = false)
    (hreads : ReadsAs (steps root ++ steps pattern)) (hsome : steps root ++ steps pattern ≠ []) :
    find tree (resolve root pattern) =
      ((steps root ++ steps pattern).mapM ofComponent).map (expand false · (start tree)) := by
  have habsolute := isAbsolute_resolve_eq_false hroot hpattern
  have hok := (isOk_parse_resolve hroot hpattern).2 hreads
  rw [find_eq, componentPatterns_resolve habsolute, habsolute]
  cases hwhole : Pattern.parse (resolve root pattern) with
  | error fault =>
      rw [hwhole] at hok
      contradiction
  | ok whole =>
      rw [Except.bind, if_neg hsome]
      rfl

/-- A pattern without components behind a root stands for where the root leads to. -/
theorem find_resolve_dot (hroot : isAbsolute root = false) (hreads : ReadsAs (steps root)) :
    find tree (resolve root ".") =
      if steps root = [] then .ok (if (start tree).isDirectory then [start tree] else [])
      else ((steps root).mapM ofComponent).map (expand false · (start tree)) := by
  have hsteps : steps root ++ steps "." = steps root := by rw [steps_dot, List.append_nil]
  split
  · rename_i hnone
    rw [resolve_eq hroot isAbsolute_dot, hsteps, if_pos hnone, find_dot]
  · rename_i hsome
    rw [← hsteps] at hreads hsome
    rw [find_resolve hroot isAbsolute_dot hreads hsome, hsteps]

/-- A root that leads to a directory, and that stands for this directory alone if it is read as a
pattern. -/
structure Rooted (outer : Entry) (root : String) (base : Place) : Prop where
  /-- The root leads there. -/
  leads : Place.find? outer root = some base
  /-- There is a directory. -/
  isDirectory : base.isDirectory = true
  /-- The root is a pattern for nothing else. -/
  alone : find outer (resolve root ".") = .ok [base]
  /-- The last component does not stand for all that is below a directory. -/
  notStars : ∀ c ∈ (steps root).getLast?, ofComponent c ≠ .ok [.anyDirectories]

theorem Rooted.isAbsolute_eq_false (h : Rooted outer root base) : isAbsolute root = false := by
  obtain ⟨habsolute, -⟩ := exists_of_mem_find h.alone List.mem_cons_self
  exact (relative_of_resolve habsolute).1

theorem Rooted.readsAs (h : Rooted outer root base) : ReadsAs (steps root) := by
  obtain ⟨-, qs, hqs, -⟩ := exists_of_mem_find h.alone List.mem_cons_self
  have hreads := isOk_parse_resolve h.isAbsolute_eq_false isAbsolute_dot
  rw [steps_dot, List.append_nil] at hreads
  refine hreads.1 ?_
  rw [componentPatterns] at hqs
  cases hwhole : Pattern.parse (resolve root ".") with
  | error fault =>
      rw [hwhole] at hqs
      contradiction
  | ok whole => rfl

/-- The last pattern of a root is that of its last component. -/
theorem getLast?_ne_of_forall₂ {cs : List Component} {qs : List Pattern} {r : Pattern}
    (h : List.Forall₂ (ofComponent · = .ok ·) cs qs)
    (hcs : ∀ c ∈ cs.getLast?, ofComponent c ≠ .ok r) : qs.getLast? ≠ some r := by
  induction h with
  | nil => simp
  | @cons c q cs qs hfirst hrest ih =>
      cases hrest with
      | nil =>
          intro heq
          obtain rfl := Option.some.inj heq
          exact hcs c rfl hfirst
      | cons =>
          rw [List.getLast?_cons_cons] at hcs ⊢
          exact ih hcs

/-- **The patterns of a root** lead to its directory, and those behind them from there on. -/
theorem Rooted.exists_patterns (h : Rooted outer root base) :
    ∃ qs, (steps root).mapM ofComponent = .ok qs ∧
      ∀ qs', expand false (qs ++ qs') (start outer) = expand false qs' base := by
  have hfind := h.alone
  rw [find_resolve_dot h.isAbsolute_eq_false h.readsAs] at hfind
  obtain ⟨qs, hqs, hexpand⟩ :
      ∃ qs, (steps root).mapM ofComponent = .ok qs ∧ expand false qs (start outer) = [base] := by
    split at hfind
    · rename_i hnone
      have hplaces := Except.ok.inj hfind
      split at hplaces
      · exact ⟨[], by rw [hnone]; rfl, hplaces⟩
      · exact absurd hplaces.symm (List.cons_ne_nil base [])
    · cases hqs : (steps root).mapM ofComponent with
      | error fault =>
          rw [hqs] at hfind
          contradiction
      | ok qs =>
          rw [hqs] at hfind
          exact ⟨qs, rfl, Except.ok.inj hfind⟩
  have hlast := getLast?_ne_of_forall₂ (mapM_eq_ok_iff.1 hqs) h.notStars
  refine ⟨qs, hqs, fun qs' => ?_⟩
  rw [expand_append hlast (absurd · Bool.false_ne_true), hexpand, List.flatMap_singleton]

/-- What two patterns stand for in two trees: the same places, but moved, unless both have the same
fault. -/
inductive FoundAlike (base : Place) : Except Fault (List Place) → Except Fault (List Place) → Prop
  | malformed (fault : Fault) : FoundAlike base (.error fault) (.error fault)
  | found {ps ps' : List Place} (h : List.Forall₂ (Moved base) ps ps') :
      FoundAlike base (.ok ps) (.ok ps')

/-- **A pattern behind a root** stands for the same places as without it, in the tree that is
there. -/
theorem foundAlike_find (h : Rooted outer root base) (hentry : base.entry = tree)
    (hpattern : isAbsolute pattern = false) (hparse : (Pattern.parse pattern).isOk = true)
    (hclimbs : ¬ Climbs pattern) :
    FoundAlike base (find outer (resolve root pattern)) (find tree (resolve "." pattern)) := by
  have hmoved := moved_start hentry
  by_cases hnone : steps pattern = []
  · -- without components, both patterns stand for the directory itself
    have hresolve {root : String} (hroot : isAbsolute root = false) :
        resolve root pattern = resolve root "." := by
      rw [resolve_eq hroot hpattern, resolve_eq hroot isAbsolute_dot, hnone, steps_dot]
    rw [hresolve h.isAbsolute_eq_false, hresolve isAbsolute_dot, h.alone,
      find_resolve_dot isAbsolute_dot rfl, if_pos steps_dot, ← hmoved.isDirectory, h.isDirectory,
      if_pos rfl]
    exact .found (.cons hmoved .nil)
  · obtain ⟨qs, hqs, hexpand⟩ := h.exists_patterns
    have hreads := readsAs_steps hpattern hparse
    have hsome : steps root ++ steps pattern ≠ [] := List.append_ne_nil_of_right_ne_nil _ hnone
    rw [find_resolve h.isAbsolute_eq_false hpattern (h.readsAs.append hreads) hsome,
      find_resolve isAbsolute_dot hpattern hreads hnone, steps_dot, List.nil_append,
      List.mapM_append, hqs]
    cases hqs' : (steps pattern).mapM ofComponent with
    | error fault => exact .malformed fault
    | ok qs' =>
        have hclimbs' := climbs_eq_false_of_forall₂ (climbs_eq_false_of_not_climbs hclimbs)
          (mapM_eq_ok_iff.1 hqs')
        change FoundAlike base (.ok (expand false (qs ++ qs') (start outer))) (.ok _)
        rw [hexpand]
        exact .found (forall₂_expand hclimbs' hmoved false)

/-! ## roots without wildcards -/

/-- Patterns without wildcards lead where their texts do. -/
theorem expand_literals {cs : List Component} (hcs : ∀ c ∈ cs, ProperComponent c) (p : Place) :
    expand false (cs.map fun c => c.text.toList.map .char) p =
      (cs.foldlM Place.step? p).toList := by
  induction cs generalizing p with
  | nil => rfl
  | cons c cs ih =>
      obtain ⟨hc, hcs⟩ := List.forall_mem_cons.1 hcs
      have hnotStars : (c.text.toList.map .char : Pattern) ≠ [.anyDirectories] := by
        cases c.text.toList <;> simp
      rw [List.map_cons, expand_cons, if_neg hnotStars, matched, if_neg Bool.false_ne_true,
        literal?_map_char]
      dsimp only
      rw [literalComponent_text hc, List.foldlM_cons]
      cases p.step? c with
      | none => rfl
      | some q => exact (List.flatMap_singleton _ q).trans (ih hcs q)

/-- A path that leads somewhere in a tree is relative. -/
theorem isAbsolute_eq_false_of_find? (h : Place.find? outer root = some base) :
    isAbsolute root = false := by
  refine Bool.eq_false_iff.2 fun habsolute => ?_
  obtain ⟨behind, hbehind⟩ := List.head?_eq_some_iff.1 (of_decide_eq_true habsolute)
  rw [Place.find?, components, habsolute, hbehind, Text.pieces, if_pos rfl] at h
  contradiction

/-- **A root without wildcards** is a pattern for what it leads to. -/
theorem rooted_of_plain (hroot : ∀ d ∈ root.toList, Plain d)
    (hleads : Place.find? outer root = some base) (hdirectory : base.isDirectory = true) :
    Rooted outer root base := by
  have habsolute := isAbsolute_eq_false_of_find? hleads
  have hpath : base.path = steps root := (trail_of_walk hleads).2
  have hwalk : walk outer (steps root) = some base := hpath ▸ Stands.of_walk hleads
  have hpatterns : ∀ c ∈ steps root, ofComponent c = .ok (c.text.toList.map .char) :=
    fun c hc => parse_eq_of_plain fun d hd => hroot d (mem_of_mem_text_steps hc hd)
  have hqs := mapM_eq_ok_iff.2 (List.forall₂_map_right_iff.2 (List.forall₂_same.2 hpatterns))
  refine ⟨hleads, hdirectory, ?_, fun c hc => ?_⟩
  · have hreads := readsAs_steps habsolute (by rw [parse_eq_of_plain hroot]; rfl)
    rw [find_resolve_dot habsolute hreads]
    split
    · rename_i hnone
      rw [hnone] at hwalk
      obtain rfl := Option.some.inj hwalk
      rw [if_pos hdirectory]
    · have hexpand := expand_literals (properComponent_of_mem_steps habsolute) (start outer)
      rw [hqs]
      exact congrArg Except.ok (hexpand.trans (congrArg Option.toList hwalk))
  · rw [hpatterns c (List.mem_of_mem_getLast? hc)]
    cases c.text.toList <;> simp

end Glob

end LocaleAudit
