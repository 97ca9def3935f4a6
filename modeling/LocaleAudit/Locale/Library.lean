import LocaleAudit.Key.Link
import LocaleAudit.Locale.Catalog

/-!
# LocaleAudit.Locale.Library

All catalogs of a project, and what was wrong with those that could not be loaded.
-/

namespace LocaleAudit.Locale

/-- The catalogs of a project. -/
structure Library where
  /-- Where they come from. -/
  sources : List Source
  /-- The catalogs. -/
  catalogs : List Catalog
  /-- What was wrong with sources and files. -/
  failures : List Failure

namespace Library

/-- The locales of all catalogs. -/
def locales (l : Library) : KeySet := KeySet.ofList (l.catalogs.flatMap (·.locales))

/-- What is wrong with the sources: there are none, or they have no locale although no file is to
blame for it. -/
def problem? (l : Library) : Option Failure :=
  if l.sources.isEmpty then some .noSource
  else if l.locales.toList.isEmpty && !l.failures.any Failure.isParse then
    some (.noLocales (l.sources.map (·.pattern)))
  else none

/-- The catalog at a path, if there is one. -/
def find? (l : Library) (path : String) : Except Failure (Option Catalog) :=
  if l.sources.isEmpty then .error .noSource
  else
    let path := Path.normalize path
    .ok <| l.catalogs.find? fun c =>
      c.path = path && match c.layout with
        | .file => ((Path.stem? path).map c.locales.contains).getD false
        | .key => true

/-- The keys that the messages of all catalogs link to. -/
def linkedKeys (l : Library) : KeySet :=
  KeySet.ofList (l.catalogs.flatMap fun c => Key.linksIn c.messages)

end Library

end LocaleAudit.Locale
