import LocaleAudit.Issue
import LocaleAudit.Json.Locate
import LocaleAudit.Json.Printer
import LocaleAudit.Locale.Finding

/-!
# LocaleAudit.Rule.Unused

Keys of catalogs that nothing uses. An issue points to the name of the member that the path of the
key names.
-/

namespace LocaleAudit.Rule

open Text LocaleAudit.Locale

/-- The issue of an unused key, if there is a member at its path. -/
def unusedIssue? (c : Catalog) (f : Finding) : Option Issue :=
  (c.root.find? f.path.toList).map fun m =>
    .unusedKey {
      file := c.shown
      position := position c.text m.key.span.lo
      key := f.key
      locale := f.locale
      value := String.ofList m.value.toValue.compact }

/-- An issue for each key of each catalog that is not expected. -/
def unusedIssues (expected : KeySet) (catalogs : List Catalog) : List Issue :=
  catalogs.flatMap fun c => (c.unusedKeys expected).filterMap (unusedIssue? c)

end LocaleAudit.Rule
