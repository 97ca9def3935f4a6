import LocaleAudit.Failure
import LocaleAudit.Json.Parser
import LocaleAudit.Key.Set
import LocaleAudit.Path

/-!
# LocaleAudit.Locale.Catalog

Catalogs: files of messages, and the locales that they provide. A file holds the messages of one
locale, which is named like the file, or those of several, each under its name.
-/

namespace LocaleAudit.Locale

open Json

/-- How the messages of a catalog belong to locales. -/
inductive Layout
  /-- The file is named like its locale. -/
  | file
  /-- The outermost names are those of the locales. -/
  | key
deriving Repr, DecidableEq, Inhabited

/-- Where catalogs are looked for. -/
structure Source where
  /-- A pattern for the paths of the files. -/
  pattern : String
  /-- Their layout. -/
  layout : Layout
deriving Repr, DecidableEq

/-- A catalog. -/
structure Catalog where
  /-- Its path, in normal form. -/
  path : String
  /-- Its path, as it is shown. -/
  shown : String
  /-- Its layout. -/
  layout : Layout
  /-- Its text. -/
  text : List Char
  /-- What is in the text. -/
  root : Node
  /-- The text is well-formed. -/
  parsed : parse text = .ok root

namespace Catalog

/-- The catalog with the given text, unless that is malformed. -/
def ofText (path shown : String) (layout : Layout) (text : List Char) : Except Failure Catalog :=
  match h : parse text with
  | .ok root => .ok ⟨Path.normalize path, shown, layout, text, root, h⟩
  | .error fault => .error (.parse shown (fault.message text))

/-- The messages of a catalog. -/
def messages (c : Catalog) : Value := c.root.toValue

/-- The locales that a catalog provides. -/
def locales (c : Catalog) : List String :=
  match c.layout, c.messages with
  | .file, _ => (Path.stem? c.path).toList
  | .key, .object members => members.map (·.1)
  | .key, _ => []

end Catalog

end LocaleAudit.Locale
