import LocaleAudit.Text.Lines

/-!
# LocaleAudit.Path

Paths of files. A path is a text; what it means is its list of components. Repeated and trailing
slashes mean nothing, and neither does a single dot, except at the start, where it is kept.
-/

namespace LocaleAudit.Path

open Text

/-! ## components -/

/-- A component of a path. -/
inductive Component
  /-- The slash in front of an absolute path. -/
  | root
  /-- A single dot. -/
  | current
  /-- Two dots. -/
  | parent
  /-- The name of a file or a directory. -/
  | name (text : String)
deriving Repr, DecidableEq, Inhabited

namespace Component

/-- The text of a component. -/
def text : Component → String
  | root => ""
  | current => "."
  | parent => ".."
  | name n => n

/-- The components that a piece between slashes stands for, behind the first. -/
def ofPiece : List Char → List Component
  | [] | ['.'] => []
  | ['.', '.'] => [parent]
  | n => [name (String.ofList n)]

/-- The rank of the kind of a component in the order of paths. -/
def rank : Component → Nat
  | root => 0
  | current => 1
  | parent => 2
  | name _ => 3

/-- The order of components: by kind, and names by their bytes. -/
def less (a b : Component) : Bool := a.rank < b.rank || (a.rank = b.rank && a.text < b.text)

end Component

/-- The path starts at the root of the file system. -/
def isAbsolute (path : String) : Bool := path.toList.head? = some '/'

/-- The components of a path. -/
def components (path : String) : List Component :=
  match pieces '/' path.toList with
  | [] => []
  | piece :: pieces =>
    (if isAbsolute path then [.root]
     else if piece = ['.'] then [.current]
     else Component.ofPiece piece) ++ pieces.flatMap Component.ofPiece

/-- The texts of components with slashes between them. -/
def joined (cs : List Component) : List Char :=
  List.intercalate ['/'] (cs.map fun c => c.text.toList)

/-- The path of a list of components. -/
def ofComponents : List Component → String
  | .root :: cs => String.ofList ('/' :: joined cs)
  | cs => String.ofList (joined cs)

/-- The order of paths, by components. -/
def less : List Component → List Component → Bool
  | _, [] => false
  | [], _ :: _ => true
  | a :: as, b :: bs => a.less b || (a = b && less as bs)

/-! ## parts of a path -/

/-- The name of the file that a path ends in. -/
def fileName? (path : String) : Option String :=
  match (components path).getLast? with
  | some (.name n) => some n
  | _ => none

/-- What follows the last dot in the name of a file, unless nothing stands in front of that dot. -/
def extension? (path : String) : Option String := do
  let backwards := (← fileName? path).toList.reverse
  let behind := backwards.takeWhile (· ≠ '.')
  if behind.length + 1 < backwards.length then some (String.ofList behind.reverse) else none

/-- The name of the file without its extension. -/
def stem? (path : String) : Option String := do
  let name ← fileName? path
  match extension? path with
  | some e => some (String.ofList (name.toList.take (name.length - e.length - 1)))
  | none => some name

/-- Pieces between slashes without those at the end that mean nothing. -/
def withoutEnd (pieces : List (List Char)) : List (List Char) :=
  (pieces.reverse.dropWhile fun piece => piece = [] || piece = ['.']).reverse

/-- What is written in front of the last component. -/
def parent? (path : String) : Option String :=
  match pieces '/' path.toList with
  | [] => none
  | first :: rest =>
    match withoutEnd rest with
    | [] => if first = [] then none else some ""
    | last =>
      match first, withoutEnd last.dropLast with
      | [], [] => some "/"
      | first, before => some (String.ofList (List.intercalate ['/'] (first :: before)))

/-! ## normal forms -/

/-- The components that are not single dots. -/
def steps (path : String) : List Component := (components path).filter (· ≠ .current)

/-- A path without single dots and needless slashes. -/
def normalize (path : String) : String := ofComponents (steps path)

/-- A path behind another, unless it is absolute. -/
def join (root path : String) : String :=
  if isAbsolute path then path
  else if root.isEmpty || root.toList.getLast? = some '/' then root ++ path
  else root ++ "/" ++ path

/-- A path in normal form behind a root, unless it is absolute. -/
def resolve (root path : String) : String :=
  if isAbsolute path then path
  else
    let joined := normalize (join root path)
    if joined.isEmpty then "." else joined

/-- A path as it is shown: relative to a root that it is below of, and with forward slashes. -/
def display (root path : String) : String :=
  let relative := (behind? (steps root) (steps path)).getD (steps path)
  let shown := String.ofList
    ((ofComponents relative).toList.map fun c => if c = '\\' then '/' else c)
  if shown.isEmpty then "." else shown

end LocaleAudit.Path
