import LocaleAudit.Config.Parser
import LocaleAudit.FileTree

/-!
# LocaleAudit.Config.Load

Finding and loading the configuration of a project. It is searched for in the root directory and in
those above it, up to the first one that a repository starts in.
-/

namespace LocaleAudit.Config

/-- The name of configuration files. -/
def fileName : String := ".keycheckrc.json"

/-- Something is at a path. -/
def exists? (tree : Entry) (path : String) : Bool := (Place.find? tree path).isSome

/-- The path of the configuration file for a directory, searched for in at most the given number of
directories. -/
def search (tree : Entry) : Nat → String → Option String
  | 0, _ => none
  | left + 1, directory =>
    let path := Path.join directory fileName
    if exists? tree path then some path
    else if exists? tree (Path.join directory ".git") then none
    else (Path.parent? directory).bind (search tree left)

/-- The path of the configuration file for a directory. -/
def find? (tree : Entry) (directory : String) : Option String :=
  search tree ((Path.components directory).length + 1) directory

/-- A configuration, and the path of its file if it has one. -/
structure Loaded where
  /-- The configuration. -/
  config : Config
  /-- The path of its file. -/
  path : Option String
deriving Repr, DecidableEq

/-- The configuration in a file, or what is wrong with it. -/
def ofContent (path : String) (entry : Entry) : Except String Config :=
  match entry.read with
  | .error reason => .error
      ("Failed to read config file: " ++ Text.Quoted.encode path ++ ": " ++ reason)
  | .ok characters =>
    match parse characters with
    | .error fault => .error
        ("Failed to parse config file: " ++ Text.Quoted.encode path ++ ": " ++
          fault.message characters)
    | .ok config =>
      match config.problem? with
      | some problem => .error problem
      | none => .ok config

/-- The configuration for a directory: that of its file, or else the default. -/
def load (tree : Entry) (directory : String) : Except String Loaded :=
  match find? tree directory with
  | none => .ok ⟨{}, none⟩
  | some path =>
    match Place.find? tree path with
    | none => .ok ⟨{}, none⟩
    | some place => (ofContent path place.entry).map fun config => ⟨config, some path⟩

end LocaleAudit.Config
