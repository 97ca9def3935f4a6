import LocaleAudit.Issue
import LocaleAudit.Locale.Finding
import LocaleAudit.UsedKeys

/-!
# LocaleAudit.Rule.Missing

Keys that are used and that a locale lacks. Several catalogs may provide one locale; it lacks a key
if all of them do.
-/

namespace LocaleAudit.Rule

open LocaleAudit.Locale

/-- The keys that locales lack, by locale in ascending order. -/
abbrev LackingKeys := List (String × KeySet)

/-- Takes into account that a catalog which provides a locale lacks the given keys. -/
def lack (locale : String) (keys : KeySet) : LackingKeys → LackingKeys
  | [] => [(locale, keys)]
  | (l, ks) :: rest =>
    if locale < l then (locale, keys) :: (l, ks) :: rest
    else if locale = l then (l, ks.filter keys.contains) :: rest
    else (l, ks) :: lack locale keys rest

/-- Takes a catalog into account. -/
def lackIn (used : KeySet) (lacking : LackingKeys) (c : Catalog) : LackingKeys :=
  let findings := c.missingKeys used
  c.locales.foldl (fun lacking locale =>
    lack locale
      (KeySet.ofList ((findings.filter fun f => f.locale = locale).map (·.key))) lacking) lacking

/-- The keys of those used that locales lack. -/
def lackingKeys (used : KeySet) (catalogs : List Catalog) : LackingKeys :=
  catalogs.foldl (lackIn used) []

/-- An issue for each usage of a key and each locale that lacks it. -/
def missingIssues (used : UsedKeys) (catalogs : List Catalog) : List Issue :=
  let lacking := lackingKeys used.keys catalogs
  used.usages.flatMap fun u =>
    (lacking.filter fun (_, keys) => keys.contains u.key).map fun (locale, _) =>
      .missingKey u.context u.key locale

end LocaleAudit.Rule
