import LocaleAudit.FileTree
import LocaleAudit.Glob.Pattern
import LocaleAudit.Source
import LocaleAudit.UsedKeys

/-!
# LocaleAudit.Source.Scan

The source files of a project: all files below a directory whose names end as they should, except
those that are ignored.
-/

namespace LocaleAudit.Source

/-- What is scanned. -/
structure ScanOptions where
  /-- The root of the project. -/
  root : String
  /-- The directory to scan, relative to the root. -/
  src : String
  /-- The endings of names, with or without a dot in front. -/
  extensions : List String
  /-- What is ignored: patterns, and paths relative to the root. -/
  ignores : List String
deriving Repr, DecidableEq

/-- A file that a scan has found. -/
structure ScannedFile where
  /-- Its path from the working directory on. -/
  path : String
  /-- Its content. -/
  content : Content
deriving Repr, DecidableEq

/-- What a scan has found. -/
structure Scan where
  /-- The files, in the order of their paths. -/
  files : List ScannedFile
  /-- How many places could not be looked at. -/
  skipped : Nat
deriving Repr, DecidableEq

namespace ScanOptions

/-- The text is meant as a pattern. -/
def isPattern (ignore : String) : Bool := ignore.toList.any fun c => c = '*' || c = '?'

/-- The patterns among the things to ignore; malformed ones ignore nothing. -/
def ignorePatterns (o : ScanOptions) : List Glob.Pattern :=
  (o.ignores.filter isPattern).filterMap fun text => (Glob.Pattern.parse text).toOption

/-- The paths among the things to ignore. -/
def ignorePaths (o : ScanOptions) : List (List Path.Component) :=
  (o.ignores.filter (!isPattern ·)).map fun text => Path.steps (Path.join o.root text)

/-- A path is ignored if it is at or below one of the paths, or if one of the patterns stands for it
or for its form relative to the root. -/
def ignores? (o : ScanOptions) (path : String) : Bool :=
  (o.ignorePaths.any fun ignored => ignored.isPrefixOf (Path.steps path)) ||
    o.ignorePatterns.any fun p =>
      p.accepts path.toList || p.accepts (Path.display o.root path).toList

/-- An ending with a dot in front. -/
def dotted (extension : String) : String :=
  if extension.toList.head? = some '.' then extension else "." ++ extension

/-- The name of the file ends as it should. -/
def selects (o : ScanOptions) (path : String) : Bool :=
  match Path.fileName? path with
  | some name => o.extensions.any fun e => (dotted e).toList.isSuffixOf name.toList
  | none => false

/-- The directory to scan. -/
def directory (o : ScanOptions) : String := Path.resolve o.root o.src

end ScanOptions

/-! ## scanning -/

/-- The path of a place below a directory whose own path is given. -/
def pathBelow (directory : String) (start p : Place) : String :=
  match p.path.drop start.path.length with
  | [] => directory
  | below => Path.join directory (Path.ofComponents below)

/-- The file at a place, if there is one and it is scanned. -/
def scannedFile? (o : ScanOptions) (start p : Place) : Option ScannedFile := do
  let content ← p.entry.content?
  let path := pathBelow o.directory start p
  guard (o.selects path && !o.ignores? path)
  some ⟨path, content⟩

/-- Scans a directory and all that is below it. -/
def scan (tree : Entry) (o : ScanOptions) : Scan :=
  match Place.find? tree o.directory with
  | some start => ⟨(start :: start.descendants).filterMap (scannedFile? o start), 0⟩
  | none => ⟨[], 1⟩

/-! ## used keys -/

/-- What is said about a file whose script cannot be parsed. -/
def malformed : String := "the script is malformed"

/-- The usages in a file, or why there are none. -/
def usagesIn (functions : List String) (root : String) (f : ScannedFile) :
    Except Failure (List Usage) :=
  let shown := Path.display root f.path
  match f.content.read with
  | .error reason => .error (.parse shown reason)
  | .ok characters =>
    match collectUsages functions shown characters with
    | some usages => .ok usages
    | none => .error (.parse shown malformed)

/-- The keys that the source files use. -/
def usedKeys (tree : Entry) (o : ScanOptions) (functions : List String) : UsedKeys :=
  let files := (scan tree o).files
  let results := files.map (usagesIn functions o.root)
  { usages := (results.filterMap Except.toOption).flatten
    failures := results.filterMap fun
      | .error failure => some failure
      | .ok _ => none
    fileCount := files.length }

end LocaleAudit.Source
