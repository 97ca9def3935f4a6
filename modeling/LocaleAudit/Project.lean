import LocaleAudit.Config.Load
import LocaleAudit.Locale.Load

/-!
# LocaleAudit.Project

A project: its root directory, its configuration, and its locale sources. Options that are given for
one run go before the configuration.
-/

namespace LocaleAudit

open LocaleAudit.Locale

/-- The options of a run. -/
structure Options where
  /-- The root directory. -/
  root : String := "."
  /-- The pattern of the only locale source. -/
  localeDir : Option String := none
  /-- The layout of all catalogs. -/
  localeKey : Option Layout := none
  /-- The directory to scan. -/
  src : Option String := none
  /-- The endings of the names of source files; none of them stands for those configured. -/
  extensions : List String := []
deriving Repr, DecidableEq

/-- A project. -/
structure Project where
  /-- The root directory. -/
  root : String
  /-- The configuration. -/
  config : Config
  /-- The path of the configuration file, if there is one. -/
  configPath : Option String
  /-- The locale sources. -/
  sources : List Source
deriving Repr, DecidableEq

namespace Project

/-- The project with the given configuration. -/
def ofConfig (root : String) (config : Config) : Project :=
  ⟨root, config, none, config.localeSources⟩

/-- The configuration with the options applied. -/
def overridden (o : Options) (config : Config) : Config :=
  { config with
    src := o.src.getD config.src
    extensions := if o.extensions.isEmpty then config.extensions else o.extensions }

/-- The locale sources with the options applied. -/
def sourcesFor (o : Options) (config : Config) : List Source :=
  let sources := match o.localeDir with
    | some pattern => [⟨pattern, .file⟩]
    | none => config.localeSources
  match o.localeKey with
  | some layout => sources.map fun s => { s with layout }
  | none => sources

/-- The project in a tree for the given options, or what is wrong with its configuration. -/
def ofOptions (tree : Entry) (o : Options) : Except String Project := do
  let loaded ← Config.load tree o.root
  return ⟨o.root, overridden o loaded.config, loaded.path, sourcesFor o loaded.config⟩

/-- The file that problems of the configuration are told of. -/
def configShown (p : Project) : String := (p.configPath.map (Path.display p.root)).getD "."

/-- What is scanned for the project. -/
def scanOptions (p : Project) : Source.ScanOptions :=
  ⟨p.root, p.config.src, p.config.extensions, p.config.ignores⟩

/-- The catalogs of the project. -/
def library (p : Project) (tree : Entry) : Library := Library.load tree p.root p.sources

/-- The keys that the source files of the project use. -/
def usedKeys (p : Project) (tree : Entry) : UsedKeys :=
  Source.usedKeys tree p.scanOptions p.config.translationFunctions

end Project

end LocaleAudit
