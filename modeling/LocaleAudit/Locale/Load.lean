import LocaleAudit.Glob.Expand
import LocaleAudit.Locale.Library

/-!
# LocaleAudit.Locale.Load

Loading the catalogs of a project. The files that the patterns of the sources stand for are taken in
the order of the sources, each path once, and a file that cannot be loaded does not keep the others
from being loaded.
-/

namespace LocaleAudit.Locale

/-- What a source gives: the files that its pattern stands for, or a failure. -/
inductive Candidate
  /-- A file. -/
  | found (layout : Layout) (place : Place)
  /-- The pattern is malformed. -/
  | failed (failure : Failure)

namespace Candidate

/-- The path of the file. -/
def path? : Candidate → Option String
  | found _ place => some place.pathText
  | failed _ => none

/-- The candidates of a source of a project with the given root. -/
def ofSource (tree : Entry) (root : String) (s : Source) : List Candidate :=
  match Glob.find tree (Path.resolve root s.pattern) with
  | .ok places => (places.filter fun p => !p.isDirectory).map (found s.layout)
  | .error fault => [failed (.configuration
      ("Invalid locale pattern '" ++ s.pattern ++ "': " ++ fault.message))]

/-- The candidates that do not have the path of an earlier one, or one of the given paths. -/
def firsts (seen : List String) : List Candidate → List Candidate
  | [] => []
  | c :: cs =>
    match c.path? with
    | none => c :: firsts seen cs
    | some path => if seen.contains path then firsts seen cs else c :: firsts (path :: seen) cs

/-- The catalog of a candidate. -/
def load (root : String) : Candidate → Except Failure Catalog
  | failed failure => .error failure
  | found layout place =>
    let path := place.pathText
    let shown := Path.display root path
    match place.entry.read with
    | .ok characters => Catalog.ofText path shown layout characters
    | .error reason => .error (.parse shown reason)

end Candidate

/-- The catalogs of a project with the given root. -/
def Library.load (tree : Entry) (root : String) (sources : List Source) : Library :=
  let loaded := (Candidate.firsts [] (sources.flatMap (Candidate.ofSource tree root))).map
    (Candidate.load root)
  { sources
    catalogs := loaded.filterMap Except.toOption
    failures := loaded.filterMap fun
      | .error failure => some failure
      | .ok _ => none }

end LocaleAudit.Locale
