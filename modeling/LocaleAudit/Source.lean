import LocaleAudit.Component.Keys
import LocaleAudit.Path

/-!
# LocaleAudit.Source

The keys that a source file uses. The extension of the file says what is in it: a single-file
component, or a script and its dialect.
-/

namespace LocaleAudit.Source

/-- The translation functions that are looked for unless others are named. -/
def defaultFunctions : List String := ["$t", "t", "$tc", "tc"]

/-- The usages in the text of a file, or nothing if it is malformed. -/
def collectUsages (functions : List String) (file : String) (text : List Char) :
    Option (List Usage) :=
  let extension := (Path.extension? file).getD ""
  if extension = "vue" then Component.collectUsages functions file text
  else Script.collectUsages functions file (.ofExtension extension) text

end LocaleAudit.Source
