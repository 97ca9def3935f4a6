import LocaleAudit.Script.Tree

/-!
# LocaleAudit.Proofs.Script.Tree

Syntax trees seen from above: everything that stands in a tree, at any depth.

* `Tree.child_induction` — what holds for a tree if it holds for its parts;
* `Tree.subtrees`, `Tree.subtrees_eq` — what stands in a tree, in the order in which it is visited.
-/

namespace LocaleAudit.Script.Tree

/-! ## induction -/

mutual

/-- Induction over the parts of a tree. -/
@[elab_as_elim]
theorem child_induction {motive : Tree → Prop}
    (step : ∀ t, (∀ c ∈ t.children, motive c) → motive t) (t : Tree) : motive t := by
  cases t with
  | ident => exact step _ (by simp [children])
  | string => exact step _ (by simp [children])
  | template _ substitutions => exact step _ (childList_induction step substitutions)
  | paren inner => exact step _ (List.forall_mem_singleton.2 (child_induction step inner))
  | member _ object _ => exact step _ (List.forall_mem_singleton.2 (child_induction step object))
  | call _ _ callee arguments types =>
      exact step _ (List.forall_mem_append.2
        ⟨List.forall_mem_cons.2
          ⟨child_induction step callee, childList_induction step arguments⟩,
          childList_induction step types⟩)
  | property _ key value =>
      exact step _ (List.forall_mem_append.2
        ⟨childList_induction step key,
          List.forall_mem_singleton.2 (child_induction step value)⟩)
  | group _ parts => exact step _ (childList_induction step parts)

theorem childList_induction {motive : Tree → Prop}
    (step : ∀ t, (∀ c ∈ t.children, motive c) → motive t) (ts : List Tree) :
    ∀ t ∈ ts, motive t := by
  cases ts with
  | nil => simp
  | cons t ts =>
      exact List.forall_mem_cons.2 ⟨child_induction step t, childList_induction step ts⟩

end

/-! ## what stands in a tree -/

mutual

/-- A tree and everything that stands in it; what holds other parts comes before them. -/
def subtrees : Tree → List Tree
  | ident name => [ident name]
  | string value => [string value]
  | template value substitutions => template value substitutions :: subtreesIn substitutions
  | paren inner => paren inner :: subtrees inner
  | member chained object name => member chained object name :: subtrees object
  | call chained start callee arguments types =>
    call chained start callee arguments types ::
      (subtrees callee ++ subtreesIn arguments ++ subtreesIn types)
  | property name key value => property name key value :: (subtreesIn key ++ subtrees value)
  | group construct parts => group construct parts :: subtreesIn parts

/-- Everything that stands in the trees of a list, in order. -/
def subtreesIn : List Tree → List Tree
  | [] => []
  | t :: ts => subtrees t ++ subtreesIn ts

end

theorem subtreesIn_eq_flatMap (ts : List Tree) : subtreesIn ts = ts.flatMap subtrees := by
  induction ts with
  | nil => simp [subtreesIn]
  | cons t ts ih => simp [subtreesIn, ih]

/-- **What stands in a tree** is the tree, and what stands in its parts. -/
theorem subtrees_eq (t : Tree) : t.subtrees = t :: t.children.flatMap subtrees := by
  cases t <;> simp [subtrees, children, subtreesIn_eq_flatMap, List.flatMap_append]

end LocaleAudit.Script.Tree
