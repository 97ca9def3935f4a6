import LocaleAudit.Glob.Expand
import LocaleAudit.Proofs.FileTree.Removal

/-!
# LocaleAudit.Proofs.Glob.Expand

The places that patterns stand for, in a tree and in the same tree without a file.

* `expand_cons` — the pattern of one component, and those that are left;
* `stands_of_find` — what a pattern stands for is in the tree;
* `follows_expand`, `find_remove` — what a pattern stands for without the file;
* `below_of_mem_expand` — patterns none of which stands for two dots only lead to what is below;
* `Anchored` — patterns that start with the same components without wildcards;
* `exists_location_of_find` — patterns that do not lead out of the tree.
-/

namespace LocaleAudit.Glob

open Text LocaleAudit.Path Place Entry

/-! ## components -/

/-- The patterns between the slashes of a pattern. -/
def componentPatterns (pattern : String) : Except Fault (List Pattern) := do
  let _ ← Pattern.parse pattern
  ((pieces '/' pattern.toList).filter (· ≠ [])).mapM fun text => Pattern.parse (String.ofList text)

theorem find_eq (tree : Entry) (pattern : String) :
    find tree pattern = (componentPatterns pattern).map fun qs =>
      if isAbsolute pattern then [] else expand false qs (start tree) := by
  rw [find, componentPatterns]
  cases Pattern.parse pattern with
  | error fault => rfl
  | ok whole =>
      rw [bind_pure_comp]
      rfl

/-- What is found was led to by the patterns between the slashes. -/
theorem exists_of_mem_find {tree : Entry} {pattern : String} {places : List Place}
    (h : find tree pattern = .ok places) {p : Place} (hp : p ∈ places) :
    isAbsolute pattern = false ∧
      ∃ qs, componentPatterns pattern = .ok qs ∧ p ∈ expand false qs (start tree) := by
  rw [find_eq] at h
  cases hqs : componentPatterns pattern with
  | error fault =>
      rw [hqs] at h
      contradiction
  | ok qs =>
      rw [hqs] at h
      have hplaces := Except.ok.inj h
      dsimp only at hplaces
      split at hplaces
      · rw [← hplaces] at hp
        contradiction
      · rename_i habsolute
        exact ⟨by simpa using habsolute, qs, rfl, hplaces ▸ hp⟩

/-! ## wildcards -/

/-- A pattern with wildcards stands for the given special name: a dot in front of both is needed for
that. -/
def Pattern.standsFor (q : Pattern) (special : List Char) : Bool :=
  q.head? = some (.char '.') && q.accepts special

/-- The last step to a place was by a name that the pattern stands for. -/
def Pattern.names (q : Pattern) (p : Place) : Bool :=
  (p.name?.map fun n => q.accepts n.toList).getD false

theorem wildcardSteps_eq (q : Pattern) (p : Place) :
    wildcardSteps q p =
      (if q.standsFor ['.', '.'] then (p.step? .parent).toList else []) ++
        (if q.standsFor ['.'] then (p.step? .current).toList else []) ++
        p.children.filter q.names := by
  rw [wildcardSteps]
  congr 1
  congr 1
  · cases h : p.isDirectory <;> simp [Pattern.standsFor, step?, h]
  · cases h : p.isDirectory <;> simp [Pattern.standsFor, step?, h]

/-- The places that the pattern of one component leads to, directly or by way of any directories. -/
def matched (byAny : Bool) (q : Pattern) (p : Place) : List Place :=
  if byAny then p.descendants.filter q.names
  else match q.literal? with
    | some text => (p.step? (literalComponent text)).toList
    | none => wildcardSteps q p

theorem expand_cons (byAny : Bool) (q : Pattern) (qs : List Pattern) (p : Place) :
    expand byAny (q :: qs) p =
      if q = [.anyDirectories] then expand true qs p
      else (matched byAny q p).flatMap (expand false qs) := by
  rw [expand, matched]
  split
  · rfl
  · cases byAny with
    | true => rfl
    | false => cases hliteral : q.literal? <;> rfl

/-- Nothing is found behind a file. -/
theorem expand_eq_nil_of_file {p : Place} (h : p.isDirectory = false) (q : Pattern)
    (qs : List Pattern) (byAny : Bool) : expand byAny (q :: qs) p = [] := by
  obtain ⟨content, hentry⟩ : ∃ content, p.entry = .file content := by
    rw [Place.isDirectory] at h
    cases hentry : p.entry with
    | file content => exact ⟨content, rfl⟩
    | directory es =>
        rw [hentry] at h
        contradiction
  have hdescendants : p.descendants = [] := by rw [Place.descendants, hentry]; rfl
  have hchildren : p.children = [] := by rw [children, hentry]; rfl
  have hmatched (byAny : Bool) (q : Pattern) : matched byAny q p = [] := by
    rw [matched, hdescendants]
    split
    · rfl
    · split
      · rename_i text _
        cases hc : literalComponent text with
        | root => rfl
        | current => simp [step?, h]
        | parent => simp [step?, h]
        | name n => simp [step?, hentry, child?, entries]
      · simp [wildcardSteps, h, hchildren]
  induction qs generalizing q byAny with
  | nil =>
      rw [expand_cons, hmatched]
      simp [expand, hdescendants]
  | cons next qs ih =>
      rw [expand_cons, hmatched, ih]
      simp

/-! ## places that stand in the tree -/

section stands

variable {tree : Entry} {p : Place} (htree : tree.Proper) (hp : Stands tree p)
include htree hp

theorem stands_of_mem_matched {byAny : Bool} {q : Pattern} :
    ∀ r ∈ matched byAny q p, Stands tree r := by
  intro r hr
  rw [matched] at hr
  split at hr
  · exact hp.of_mem_descendants htree r (List.mem_filter.1 hr).1
  · split at hr
    · exact hp.step? (Option.mem_toList.1 hr)
    · rw [wildcardSteps_eq, List.mem_append, List.mem_append] at hr
      rcases hr with (hr | hr) | hr
      · split at hr
        · exact hp.step? (Option.mem_toList.1 hr)
        · contradiction
      · split at hr
        · exact hp.step? (Option.mem_toList.1 hr)
        · contradiction
      · exact hp.of_mem_children htree r (List.mem_filter.1 hr).1

/-- **What patterns lead to** stands in the tree. -/
theorem stands_of_mem_expand {byAny : Bool} {qs : List Pattern} :
    ∀ r ∈ expand byAny qs p, Stands tree r := by
  intro r hr
  induction qs generalizing byAny p with
  | nil =>
      rw [expand] at hr
      split at hr
      · exact hp.of_mem_descendants htree r (List.mem_filter.1 hr).1
      · exact List.mem_singleton.1 hr ▸ hp
  | cons q qs ih =>
      rw [expand_cons] at hr
      split at hr
      · exact ih hp hr
      · obtain ⟨s, hs, hr⟩ := List.mem_flatMap.1 hr
        exact ih (stands_of_mem_matched htree hp s hs) hr

omit hp in
theorem stands_of_find {pattern : String} {places : List Place}
    (h : find tree pattern = .ok places) : ∀ q ∈ places, Stands tree q := by
  intro q hq
  obtain ⟨-, qs, -, hq⟩ := exists_of_mem_find h hq
  exact stands_of_mem_expand htree Stands.start q hq

end stands

/-! ## without a file -/

section removal

variable {tree : Entry} {p : Place} {gone : List String} (hgone : Removal tree gone)
include hgone

theorem follows_filter_names {found : Place → List Place} (q : Pattern)
    (hstands : ∀ r ∈ found p, Stands tree r) (h : Follows (remove gone tree) found p) :
    Follows (remove gone tree) (fun p => (found p).filter q.names) p := by
  refine h.filter fun r hr r' hr' => ?_
  rw [Pattern.names, Pattern.names, name?, name?,
    (thinned_of_counterpart? hgone (hstands r hr) hr').1]

theorem follows_wildcardSteps (hp : Stands tree p) (q : Pattern) :
    Follows (remove gone tree) (wildcardSteps q) p := by
  have hspecial (special : List Char) (c : Component) :
      Follows (remove gone tree)
        (fun p => if q.standsFor special then (p.step? c).toList else []) p := by
    cases q.standsFor special with
    | true => exact follows_step? hgone hp c
    | false => exact .nil
  rw [funext (wildcardSteps_eq q)]
  exact ((hspecial _ _).append (hspecial _ _)).append
    (follows_filter_names hgone q (hp.of_mem_children hgone.proper) (follows_children hgone hp))

theorem follows_matched (hp : Stands tree p) (byAny : Bool) (q : Pattern) :
    Follows (remove gone tree) (matched byAny q) p := by
  cases byAny with
  | true =>
      exact follows_filter_names hgone q (hp.of_mem_descendants hgone.proper)
        (follows_descendants hgone hp)
  | false =>
      cases hliteral : q.literal? with
      | some text =>
          have heq : matched false q = fun p => (p.step? (literalComponent text)).toList :=
            funext fun p => by rw [matched, if_neg Bool.false_ne_true, hliteral]
          rw [heq]
          exact follows_step? hgone hp _
      | none =>
          have heq : matched false q = wildcardSteps q :=
            funext fun p => by rw [matched, if_neg Bool.false_ne_true, hliteral]
          rw [heq]
          exact follows_wildcardSteps hgone hp q

/-- **What patterns lead to** without the file. -/
theorem follows_expand (hp : Stands tree p) (byAny : Bool) (qs : List Pattern) :
    Follows (remove gone tree) (expand byAny qs) p := by
  induction qs generalizing byAny p with
  | nil =>
      cases byAny with
      | true =>
          refine (follows_descendants hgone hp).filter fun r hr r' hr' => ?_
          have hstands := hp.of_mem_descendants hgone.proper r hr
          exact (thinned_of_counterpart? hgone hstands hr').2.isDirectory
      | false => exact .self
  | cons q qs ih =>
      rw [funext (expand_cons byAny q qs)]
      split
      · exact ih hp true
      · exact (follows_matched hgone hp byAny q).flatMap fun r hr =>
          ih (stands_of_mem_matched hgone.proper hp r hr) false

/-- **The places that a pattern stands for** without the file. -/
theorem find_remove (pattern : String) :
    find (remove gone tree) pattern =
      (find tree pattern).map fun places => places.filterMap (counterpart? (remove gone tree)) := by
  rw [find_eq, find_eq]
  cases componentPatterns pattern with
  | error fault => rfl
  | ok qs =>
      refine congrArg Except.ok ?_
      dsimp only
      split
      · rfl
      · rw [follows_expand hgone Stands.start false qs]
        simp [counterpart?, walk, start]

end removal

/-! ## what is below -/

/-- A place is below another one, or that place itself. -/
def Below (p q : Place) : Prop := ∃ names : List String, q.path = p.path ++ names.map .name

theorem Below.refl {p : Place} : Below p p := ⟨[], (List.append_nil _).symm⟩

theorem Below.trans {p q r : Place} (hpq : Below p q) (hqr : Below q r) : Below p r := by
  obtain ⟨names, hq⟩ := hpq
  obtain ⟨names', hr⟩ := hqr
  exact ⟨names ++ names', by rw [hr, hq, List.map_append, List.append_assoc]⟩

theorem below_of_mem_children {p q : Place} (h : q ∈ p.children) : Below p q := by
  obtain ⟨m, -, rfl⟩ := List.mem_map.1 h
  exact ⟨[m.1], rfl⟩

theorem below_of_mem_descendants {p q : Place} (h : q ∈ p.descendants) : Below p q := by
  induction he : p.entry using Entry.member_induction generalizing p with
  | step e ih =>
      rw [descendants_eq] at h
      obtain ⟨r, hr, hq⟩ := List.mem_flatMap.1 h
      have hbelow := below_of_mem_children hr
      rcases List.mem_cons.1 hq with rfl | hq
      · exact hbelow
      · obtain ⟨m, hm, rfl⟩ := List.mem_map.1 hr
        exact hbelow.trans (ih m (he ▸ hm) hq rfl)

/-- A pattern stands for two dots. -/
def Pattern.climbs (q : Pattern) : Bool :=
  match q.literal? with
  | some text => text = ['.', '.']
  | none => q.standsFor ['.', '.']

/-- A pattern only stands for names. -/
def Pattern.descends (q : Pattern) : Bool :=
  q ≠ [.anyDirectories] && match q.literal? with
    | some text => text ≠ ['.'] && text ≠ ['.', '.']
    | none => !q.standsFor ['.'] && !q.standsFor ['.', '.']

/-- **Where the pattern of one component leads**: up or nowhere else, if it stands for dots, or to what
is below. -/
theorem cases_of_mem_matched {q : Pattern} {byAny : Bool} {p r : Place}
    (h : r ∈ matched byAny q p) :
    q.climbs = true ∧ p.step? .parent = some r ∨
      q.descends = false ∧ p.step? .current = some r ∨ ∃ c ∈ p.children, Below c r := by
  rw [matched] at h
  split at h
  · obtain ⟨c, hc, hr⟩ := List.mem_flatMap.1 (descendants_eq ▸ (List.mem_filter.1 h).1)
    rcases List.mem_cons.1 hr with rfl | hr
    · exact .inr (.inr ⟨r, hc, .refl⟩)
    · exact .inr (.inr ⟨c, hc, below_of_mem_descendants hr⟩)
  · rw [Pattern.climbs, Pattern.descends]
    cases hliteral : q.literal? with
    | some text =>
        rw [hliteral] at h
        have hstep := Option.mem_toList.1 h
        rw [literalComponent] at hstep
        split at hstep
        · rename_i htext
          exact .inr (.inl ⟨by simp [htext], hstep⟩)
        · split at hstep
          · rename_i htext
            exact .inl ⟨by simp [htext], hstep⟩
          · obtain ⟨e, he, rfl⟩ := Option.map_eq_some_iff.1 hstep
            exact .inr (.inr ⟨_, List.mem_map.2 ⟨_, mem_of_child? he, rfl⟩, .refl⟩)
    | none =>
        rw [hliteral] at h
        dsimp only at h ⊢
        rw [wildcardSteps_eq, List.mem_append, List.mem_append] at h
        rcases h with (h | h) | h
        · split at h
          · rename_i hclimbs
            exact .inl ⟨hclimbs, Option.mem_toList.1 h⟩
          · contradiction
        · split at h
          · rename_i hstands
            exact .inr (.inl ⟨by simp [hstands], Option.mem_toList.1 h⟩)
          · contradiction
        · exact .inr (.inr ⟨r, (List.mem_filter.1 h).1, .refl⟩)

theorem below_of_mem_matched {q : Pattern} (hq : q.climbs = false) {byAny : Bool} {p r : Place}
    (h : r ∈ matched byAny q p) : Below p r := by
  rcases cases_of_mem_matched h with ⟨hclimbs, -⟩ | ⟨-, hstep⟩ | ⟨c, hc, hbelow⟩
  · rw [hq] at hclimbs
    contradiction
  · cases step_of_step? hstep
    exact .refl
  · exact (below_of_mem_children hc).trans hbelow

/-- **Patterns none of which stands for two dots** only lead to what is below. -/
theorem below_of_mem_expand {qs : List Pattern} (hqs : ∀ q ∈ qs, q.climbs = false) {byAny : Bool}
    {p r : Place} (h : r ∈ expand byAny qs p) : Below p r := by
  induction qs generalizing byAny p with
  | nil =>
      rw [expand] at h
      split at h
      · exact below_of_mem_descendants (List.mem_filter.1 h).1
      · exact List.mem_singleton.1 h ▸ .refl
  | cons q qs ih =>
      obtain ⟨hq, hqs⟩ := List.forall_mem_cons.1 hqs
      rw [expand_cons] at h
      split at h
      · exact ih hqs h
      · obtain ⟨s, hs, hr⟩ := List.mem_flatMap.1 h
        exact (below_of_mem_matched hq hs).trans (ih hqs hr)

/-- A pattern starts with the given components, and nothing behind them stands for two dots. -/
def Anchored (anchor : List Component) (qs : List Pattern) : Prop :=
  ∃ literals rest, qs = literals ++ rest ∧
    literals.map (fun q => q.literal?.map literalComponent) = anchor.map some ∧
    ∀ q ∈ rest, q.climbs = false

theorem below_of_mem_expand_anchored {anchor : List Component} {qs : List Pattern}
    (hqs : Anchored anchor qs) {p r : Place} (h : r ∈ expand false qs p) :
    ∃ base, anchor.foldlM (·.step? ·) p = some base ∧ Below base r := by
  obtain ⟨literals, rest, rfl, hliterals, hrest⟩ := hqs
  induction literals generalizing anchor p with
  | nil =>
      obtain rfl : anchor = [] := by simpa using hliterals
      exact ⟨p, rfl, below_of_mem_expand hrest h⟩
  | cons q literals ih =>
      cases anchor with
      | nil => contradiction
      | cons c anchor =>
          obtain ⟨hq, hliterals'⟩ := List.cons.inj hliterals
          obtain ⟨text, htext, rfl⟩ := Option.map_eq_some_iff.1 hq
          rw [List.cons_append, expand_cons] at h
          split at h
          · rename_i hany
            rw [hany] at htext
            contradiction
          · rw [matched, if_neg Bool.false_ne_true, htext] at h
            obtain ⟨s, hs, hr⟩ := List.mem_flatMap.1 h
            obtain ⟨base, hbase, hbelow⟩ := ih hr hliterals'
            refine ⟨base, ?_, hbelow⟩
            rw [List.foldlM_cons, Option.mem_toList.1 hs]
            exact hbase

/-! ## what is in the tree -/

/-- How many names inside the tree a pattern leads at least, from a place that is so many names
inside; nothing if it may lead out. -/
def Pattern.depth? (q : Pattern) (depth : Nat) : Option Nat :=
  if q.climbs then if depth = 0 then none else some (depth - 1)
  else if q.descends then some (depth + 1)
  else some depth

/-- How many names inside the tree patterns lead at least, one after the other. -/
def leastDepth? : Nat → List Pattern → Option Nat
  | depth, [] => some depth
  | depth, q :: qs => (q.depth? depth).bind (leastDepth? · qs)

/-- A place is at least so many names inside the tree. -/
def Inside (depth : Nat) (p : Place) : Prop :=
  ∃ names, p.location? = some names ∧ depth ≤ names.length

theorem Inside.mono {depth depth' : Nat} {p : Place} (h : Inside depth p) (hle : depth' ≤ depth) :
    Inside depth' p := by
  obtain ⟨names, hlocation, hlength⟩ := h
  exact ⟨names, hlocation, Nat.le_trans hle hlength⟩

theorem Inside.of_below {depth : Nat} {p q : Place} (h : Inside depth p) (hbelow : Below p q) :
    Inside depth q := by
  obtain ⟨names, hlocation, hlength⟩ := h
  obtain ⟨names', hpath⟩ := hbelow
  refine ⟨names ++ names', ?_, Nat.le_trans hlength (by simp)⟩
  rw [location?, hpath, locationOf_append_names, ← location?, hlocation, Option.map_some]

theorem Inside.of_mem_children {depth : Nat} {p q : Place} (h : Inside depth p)
    (hq : q ∈ p.children) : Inside (depth + 1) q := by
  obtain ⟨names, hlocation, hlength⟩ := h
  obtain ⟨m, -, rfl⟩ := List.mem_map.1 hq
  refine ⟨names ++ [m.1], ?_, by simpa using hlength⟩
  have hlocate : (p.below m.1 m.2).location? = locate p.location? (.name m.1) := locationOf_concat
  rw [hlocate, hlocation]
  rfl

theorem Inside.above {depth : Nat} {p : Place} (h : Inside (depth + 1) p) :
    Inside depth p.above := by
  obtain ⟨names, hlocation, hlength⟩ := h
  have hnames : names ≠ [] := List.ne_nil_of_length_pos (Nat.zero_lt_of_lt hlength)
  refine ⟨names.dropLast, ?_, ?_⟩
  · rw [location?, Place.above, locationOf_concat, ← location?, hlocation]
    exact if_neg hnames
  · rw [List.length_dropLast]
    exact Nat.le_sub_one_of_lt hlength

theorem Inside.of_mem_matched {depth least : Nat} {q : Pattern} {byAny : Bool} {p r : Place}
    (h : Inside depth p) (hq : q.depth? depth = some least) (hr : r ∈ matched byAny q p) :
    Inside least r := by
  rw [Pattern.depth?] at hq
  rcases cases_of_mem_matched hr with ⟨hclimbs, hstep⟩ | ⟨hdescends, hstep⟩ | ⟨c, hc, hbelow⟩
  · rw [if_pos hclimbs] at hq
    cases step_of_step? hstep
    cases depth with
    | zero => contradiction
    | succ depth => exact Option.some.inj hq ▸ h.above
  · cases step_of_step? hstep
    rw [hdescends, if_neg Bool.false_ne_true] at hq
    exact h.mono (by grind)
  · exact ((h.of_mem_children hc).of_below hbelow).mono (by grind)

/-- **Patterns that do not lead out of the tree** only lead to what is inside. -/
theorem Inside.of_mem_expand {depth least : Nat} {qs : List Pattern} {byAny : Bool} {p r : Place}
    (h : Inside depth p) (hqs : leastDepth? depth qs = some least) (hr : r ∈ expand byAny qs p) :
    Inside least r := by
  induction qs generalizing depth byAny p with
  | nil =>
      obtain rfl := Option.some.inj hqs
      rw [expand] at hr
      split at hr
      · exact h.of_below (below_of_mem_descendants (List.mem_filter.1 hr).1)
      · exact List.mem_singleton.1 hr ▸ h
  | cons q qs ih =>
      obtain ⟨between, hq, hqs⟩ := Option.bind_eq_some_iff.1 hqs
      rw [expand_cons] at hr
      split at hr
      · rename_i hany
        obtain rfl : depth = between := by
          rw [hany] at hq
          exact Option.some.inj hq
        exact ih h hqs hr
      · obtain ⟨s, hs, hr⟩ := List.mem_flatMap.1 hr
        exact ih (h.of_mem_matched hq hs) hqs hr

/-- A pattern that is relative and does not lead out of the tree finds what is inside. -/
theorem exists_location_of_find {tree : Entry} {pattern : String} {places : List Place}
    (h : find tree pattern = .ok places)
    (hinside : ∀ qs, componentPatterns pattern = .ok qs → (leastDepth? 0 qs).isSome) {p : Place}
    (hp : p ∈ places) : ∃ names, p.location? = some names := by
  obtain ⟨-, qs, hqs, hin⟩ := exists_of_mem_find h hp
  obtain ⟨least, hleast⟩ := Option.isSome_iff_exists.1 (hinside qs hqs)
  have hstart : Inside 0 (start tree) := ⟨[], rfl, Nat.le_refl 0⟩
  obtain ⟨names, hlocation, -⟩ := hstart.of_mem_expand hleast hin
  exact ⟨names, hlocation⟩

end LocaleAudit.Glob
