import LocaleAudit.Failure
import LocaleAudit.Path

/-!
# LocaleAudit.FileTree

Files and directories as a value. A tree stands for the working directory and all that is below it;
what is above it cannot be seen, and the tree does not tell where it stands, so nothing is found at
an absolute path. A place is found by walking through the components of its path one by one.
-/

namespace LocaleAudit

open LocaleAudit.Path

/-! ## entries -/

/-- What is in a file. -/
inductive Content
  /-- Text. -/
  | text (characters : List Char)
  /-- Bytes that are not text. -/
  | binary
  /-- Nothing that can be read, and what is said about that. -/
  | unreadable (reason : String)
deriving Repr, DecidableEq, Inhabited

/-- The text in a file, or why there is none. -/
def Content.read : Content → Except String (List Char)
  | text characters => .ok characters
  | binary => .error Failure.notText
  | unreadable reason => .error reason

/-- A file or a directory. -/
inductive Entry
  /-- A file. -/
  | file (content : Content)
  /-- A directory, with its entries in ascending order of their names. -/
  | directory (entries : List (String × Entry))
deriving Repr, Inhabited

namespace Entry

/-- The entries of a directory; a file has none. -/
def entries : Entry → List (String × Entry)
  | directory es => es
  | file _ => []

/-- The entry is a directory. -/
def isDirectory : Entry → Bool
  | directory _ => true
  | file _ => false

/-- The content of a file. -/
def content? : Entry → Option Content
  | file c => some c
  | directory _ => none

/-- The text in a file, or why there is none. -/
def read (e : Entry) : Except String (List Char) :=
  match e.content? with
  | some content => content.read
  | none => .error Failure.isDirectory

/-- The entry of the given name in a directory. -/
def child? (name : String) (e : Entry) : Option Entry := e.entries.lookup name

/-! ## changes -/

/-- Puts an entry among others, in the place of the one with its name if there is one. -/
def put (name : String) (e : Entry) : List (String × Entry) → List (String × Entry)
  | [] => [(name, e)]
  | (n, old) :: es =>
    if name < n then (name, e) :: (n, old) :: es
    else if name = n then (n, e) :: es
    else (n, old) :: put name e es

/-- The tree with an entry at the place that the names lead to; directories on the way are made. -/
def write (new : Entry) : List String → Entry → Entry
  | [], _ => new
  | name :: names, e =>
    let inner := (e.child? name).getD (directory [])
    directory (put name (write new names inner) e.entries)

/-- The tree without the entry that the names lead to. -/
def remove : List String → Entry → Entry
  | [], e => e
  | [name], e => match e with
    | directory es => directory (es.filter fun (n, _) => n ≠ name)
    | file c => file c
  | name :: names, e =>
    match e.child? name with
    | some inner => directory (put name (remove names inner) e.entries)
    | none => e

end Entry

/-! ## places -/

/-- A place in a tree. -/
structure Place where
  /-- How it was reached. -/
  path : List Component
  /-- The entry there, and those around it, from the inside out; none of them if the place is above
  the tree. -/
  trail : List Entry
deriving Repr, Inhabited

namespace Place

/-- The working directory. -/
def start (tree : Entry) : Place := ⟨[], [tree]⟩

/-- The entry at a place. -/
def entry (p : Place) : Entry := p.trail.head?.getD (.directory [])

/-- The entry is a directory. -/
def isDirectory (p : Place) : Bool := p.entry.isDirectory

/-- The name of the entry, if the last step to it was by name. -/
def name? (p : Place) : Option String :=
  match p.path.getLast? with
  | some (.name n) => some n
  | _ => none

/-- The directory around a directory. -/
def above (p : Place) : Place := ⟨p.path ++ [.parent], p.trail.tail⟩

/-- The place of an entry of a directory. -/
def below (p : Place) (name : String) (e : Entry) : Place := ⟨p.path ++ [.name name], e :: p.trail⟩

/-- The place one step further, if there is one. -/
def step? (p : Place) : Component → Option Place
  | .root => none
  | .current => if p.isDirectory then some p else none
  | .parent => if p.isDirectory then some p.above else none
  | .name n => (p.entry.child? n).map (p.below n)

/-- The place that a path leads to, if there is one. -/
def find? (tree : Entry) (path : String) : Option Place :=
  (components path).foldlM (·.step? ·) (start tree)

/-- The places of the entries of a directory, in ascending order of their names. -/
def children (p : Place) : List Place := p.entry.entries.map fun (n, e) => p.below n e

/-- The path of a place in normal form. -/
def pathText (p : Place) : String := ofComponents (p.path.filter (· ≠ .current))

end Place

mutual

/-- The places below an entry that is at the given place: each directory before what is in it. -/
def Entry.descendants (p : Place) : Entry → List Place
  | .file _ => []
  | .directory es => descendantsAmong p es

/-- The places of some entries of a directory, and the places below them. -/
def descendantsAmong (p : Place) : List (String × Entry) → List Place
  | [] => []
  | (n, e) :: es =>
    p.below n e :: (e.descendants (p.below n e) ++ descendantsAmong p es)

end

/-- The places below a place. -/
def Place.descendants (p : Place) : List Place := p.entry.descendants p

end LocaleAudit
