import LocaleAudit.Key.Diff
import LocaleAudit.Locale.Catalog

/-!
# LocaleAudit.Locale.Finding

What a catalog has and what it should have. In a catalog of several locales every key is expected
under the name of each locale, and what is found is told by locale and key again.
-/

namespace LocaleAudit.Locale

open Json Key

/-! ## paths of values -/

mutual

/-- The paths of the leaves of a value that is found at a path. Arrays are leaves, and an empty
object has none. -/
def leafPaths (path : String) : Value → List String
  | .object members => leafPathsUnder path members
  | _ => [path]

/-- The paths of the leaves of members of an object that is found at a path. -/
def leafPathsUnder (path : String) : List (String × Value) → List String
  | [] => []
  | (name, v) :: ms => leafPaths (under path name) v ++ leafPathsUnder path ms

end

/-- The paths of the leaves of an object; other values have none. -/
def leaves : Value → KeySet
  | .object members => KeySet.ofList (members.flatMap fun (name, v) => leafPaths name v)
  | _ => KeySet.empty

/-! ## findings -/

/-- A key that a catalog lacks or has in excess. -/
structure Finding where
  /-- The locale. -/
  locale : String
  /-- The key. -/
  key : String
  /-- The path of the key in the catalog. -/
  path : String
deriving Repr, DecidableEq

/-- Each key under the name of each locale. -/
def fanOut (keys : KeySet) (locales : List String) : KeySet :=
  KeySet.ofList (locales.flatMap fun locale => keys.toList.map (under locale))

namespace Catalog

/-- The paths that a catalog should have for the given keys. -/
def expectedPaths (c : Catalog) (keys : KeySet) : KeySet :=
  match c.layout with
  | .file => keys
  | .key => fanOut keys c.locales

/-- The locale and the key of a path in a catalog. -/
def finding? (c : Catalog) (path : String) : Option Finding :=
  match c.layout with
  | .file => c.locales.head?.map fun locale => ⟨locale, path, path⟩
  | .key => (splitFirst? path.toList).map fun (locale, key) =>
      ⟨String.ofList locale, String.ofList key, path⟩

/-- The differences between the given keys and a catalog. -/
def changes (c : Catalog) (expected : KeySet) : List Change :=
  diff (c.expectedPaths expected) (leaves c.messages)

/-- The keys of a catalog that are not expected. -/
def unusedKeys (c : Catalog) (expected : KeySet) : List Finding :=
  (c.changes expected).filterMap fun
    | .added path => c.finding? path
    | _ => none

/-- The expected keys that a catalog lacks. -/
def missingKeys (c : Catalog) (expected : KeySet) : List Finding :=
  (c.changes expected).filterMap fun
    | .removed path => c.finding? path
    | _ => none

end Catalog

end LocaleAudit.Locale
