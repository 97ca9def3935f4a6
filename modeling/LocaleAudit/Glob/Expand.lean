import LocaleAudit.FileTree
import LocaleAudit.Glob.Pattern

/-!
# LocaleAudit.Glob.Expand

The places in a tree whose paths a pattern stands for. A pattern is taken component by component,
and the entries of a directory in ascending order.
-/

namespace LocaleAudit.Glob

open Text LocaleAudit.Path

/-- The component that a text without wildcards stands for. -/
def literalComponent (text : List Char) : Component :=
  if text = ['.'] then .current
  else if text = ['.', '.'] then .parent
  else .name (String.ofList text)

/-- The places one step further whose names a pattern with wildcards stands for. A pattern with a
dot in front also stands for the directory itself and for the one above it. -/
def wildcardSteps (q : Pattern) (p : Place) : List Place :=
  let special := fun text place =>
    if p.isDirectory && q.head? = some (.char '.') && q.accepts text then [place] else []
  special ['.', '.'] p.above ++ special ['.'] p ++
    p.children.filter fun c => (c.name?.map fun n => q.accepts n.toList).getD false

/-- The places that the patterns of components lead to from a place, directly or by way of any
directories. -/
def expand (byAny : Bool) : List Pattern → Place → List Place
  | [], p => if byAny then p.descendants.filter (·.isDirectory) else [p]
  | q :: qs, p =>
    if q = [.anyDirectories] then expand true qs p
    else if byAny then
      (p.descendants.filter fun d => (d.name?.map fun n => q.accepts n.toList).getD false).flatMap
        (expand false qs)
    else match q.literal? with
      | some text => (p.step? (literalComponent text)).toList.flatMap (expand false qs)
      | none => (wildcardSteps q p).flatMap (expand false qs)

/-- The places in a tree whose paths a pattern stands for, unless it is malformed. The tree does not
tell what is at an absolute path. -/
def find (tree : Entry) (pattern : String) : Except Fault (List Place) := do
  let _ ← Pattern.parse pattern
  let texts := (pieces '/' pattern.toList).filter (· ≠ [])
  let patterns ← texts.mapM fun text => Pattern.parse (String.ofList text)
  return if isAbsolute pattern then [] else expand false patterns (Place.start tree)

end LocaleAudit.Glob
