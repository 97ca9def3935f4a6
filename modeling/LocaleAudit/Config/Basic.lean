import LocaleAudit.Glob.Pattern
import LocaleAudit.Json.Printer
import LocaleAudit.Locale.Catalog
import LocaleAudit.Source.Scan

/-!
# LocaleAudit.Config.Basic

The configuration of a project, and the JSON that it is written as.
-/

namespace LocaleAudit

open Json LocaleAudit.Locale

/-! ## locale sources -/

/-- A locale source, as it is written. -/
inductive LocaleEntry
  /-- A pattern. -/
  | pattern (text : String)
  /-- A pattern and a layout. -/
  | source (pattern : String) (layout : Layout)
deriving Repr, DecidableEq

/-- The locale sources, as they are written. -/
inductive LocaleDir
  /-- One source. -/
  | one (entry : LocaleEntry)
  /-- A list of sources. -/
  | many (entries : List LocaleEntry)
deriving Repr, DecidableEq

/-- The source that an entry stands for. -/
def LocaleEntry.toSource : LocaleEntry → Source
  | pattern text => ⟨text, .file⟩
  | source text layout => ⟨text, layout⟩

/-- The sources in order. -/
def LocaleDir.sources : LocaleDir → List Source
  | one entry => [entry.toSource]
  | many entries => entries.map LocaleEntry.toSource

/-! ## configurations -/

/-- The configuration of a project. -/
structure Config where
  /-- The locale sources. -/
  localeDir : Option LocaleDir := none
  /-- The directory to scan. -/
  src : String := "."
  /-- The endings of the names of source files. -/
  extensions : List String := [".js", ".vue"]
  /-- What is not scanned. -/
  ignores : List String := ["**/node_modules/**"]
  /-- The translation functions. -/
  translationFunctions : List String := Source.defaultFunctions
deriving Repr, DecidableEq

namespace Config

/-- The locale sources; there are none if they are not configured. -/
def localeSources (c : Config) : List Locale.Source := (c.localeDir.map LocaleDir.sources).getD []

/-- The first pattern that is malformed: where it stands, its text, and what is wrong with it. -/
def badPattern? (place : String) (texts : List String) : Option String :=
  texts.findSome? fun text =>
    match Glob.Pattern.parse text with
    | .error fault => some
        ("Invalid glob pattern in '" ++ place ++ "': \"" ++ text ++ "\": " ++ fault.message)
    | .ok _ => none

/-- What is wrong with the patterns of a configuration. -/
def problem? (c : Config) : Option String :=
  badPattern? "ignores" c.ignores <|>
    badPattern? "localeDir" (c.localeSources.map (·.pattern))

/-! ## writing -/

/-- The name of a layout. -/
def layoutName : Layout → String
  | .file => "file"
  | .key => "key"

/-- An entry as JSON. -/
def entryValue : LocaleEntry → Value
  | .pattern text => .string text
  | .source text layout =>
    .object [("pattern", .string text), ("localeKey", .string (layoutName layout))]

/-- The locale sources as JSON. -/
def localeDirValue : LocaleDir → Value
  | .one entry => entryValue entry
  | .many entries => .array (entries.map entryValue)

/-- A list of strings as JSON. -/
def stringsValue (texts : List String) : Value := .array (texts.map .string)

/-- A configuration as JSON. -/
def toValue (c : Config) : Value :=
  .object <|
    (c.localeDir.map fun d => ("localeDir", localeDirValue d)).toList ++
    [("src", .string c.src), ("extensions", stringsValue c.extensions),
     ("ignores", stringsValue c.ignores),
     ("translationFunctions", stringsValue c.translationFunctions)]

/-- The configuration that a new project starts with. -/
def initial : Config := { localeDir := some (.one (.pattern "./locales/*.json")) }

/-- A configuration as it is written into a file. -/
def text (c : Config) : List Char := c.toValue.pretty

end Config

end LocaleAudit
