import LocaleAudit.Issue
import LocaleAudit.Json.Printer

/-!
# LocaleAudit.Report.Record

A report for programs: an array with an object for each issue.
-/

namespace LocaleAudit.Report

open Json

/-- The object of an issue. -/
def record (i : Issue) : Value :=
  .object [
    ("file", .string i.file),
    ("rule", .string i.rule.name),
    ("severity", .string i.severity.name),
    ("message", .string i.message),
    ("location", .object [
      ("line", .number (.whole i.position.line)),
      ("column", .number (.whole i.position.col))])]

/-- The array of some issues as a line of text. -/
def recordsText (issues : List Issue) : List Char :=
  (Value.array (issues.map record)).pretty ++ ['\n']

end LocaleAudit.Report
