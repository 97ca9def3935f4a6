import LocaleAudit.Failure
import LocaleAudit.Key.Set
import LocaleAudit.Usage

/-!
# LocaleAudit.UsedKeys

What the source files of a project use.
-/

namespace LocaleAudit

/-- The keys that source files use. -/
structure UsedKeys where
  /-- The usages, file by file. -/
  usages : List Usage
  /-- The files that could not be read or parsed. -/
  failures : List Failure
  /-- How many files there are. -/
  fileCount : Nat
deriving Repr, DecidableEq

namespace UsedKeys

/-- What some usages alone say. -/
def ofUsages (usages : List Usage) : UsedKeys := ⟨usages, [], 0⟩

/-- The keys, without their places. -/
def keys (u : UsedKeys) : KeySet := KeySet.ofList (u.usages.map (·.key))

end UsedKeys

end LocaleAudit
