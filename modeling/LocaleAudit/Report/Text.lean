import LocaleAudit.Issue
import LocaleAudit.Report.Style
import LocaleAudit.Text.Width

/-!
# LocaleAudit.Report.Text

A report for people: each issue with its place, and for a place in a source file its line and a
caret below it; then a summary.
-/

namespace LocaleAudit.Report

open LocaleAudit.Text

/-! ## parts -/

/-- As many spaces as the given number. -/
def spaces (n : Nat) : Painted := [⟨.plain, List.replicate n ' '⟩]

/-- The word for one thing or for several. -/
def counted (n : Nat) (one several : String) : String := if n = 1 then one else several

/-- The mark of success. -/
def successMark : String := "\u2713"

/-- The mark of failure. -/
def failureMark : String := "\u2718"

/-- A severity in its color. -/
def severitySpan : Severity → Painted
  | .error => paint .boldRed "error"
  | .warning => paint .boldYellow "warning"

/-- The caret in the color of a severity. -/
def caretSpan : Severity → Painted
  | .error => paint .red "^"
  | .warning => paint .yellow "^"

/-- The cells of a line in front of a column. -/
def cellsBefore (line : String) (col : Nat) : Nat := Width.ofText (line.toList.take (col - 1))

/-! ## issues -/

/-- The line of a source file that an issue is in, with a caret below its place. -/
def sourceLines (gutter : Nat) (severity : Severity) (p : Position) (line : String) : Painted :=
  let number := (toString p.line).toList
  spaces gutter ++ plain " " ++ paint .blue "|" ++ plain "\n" ++
  [⟨.blue, List.replicate (gutter - number.length) ' ' ++ number⟩] ++ plain " " ++
    paint .blue "|" ++ plain (" " ++ line ++ "\n") ++
  spaces gutter ++ plain " " ++ paint .blue "|" ++ plain " " ++ spaces (cellsBefore line p.col) ++
    caretSpan severity ++ plain "\n"

/-- An issue, with room for line numbers of the given length. -/
def issueText (gutter : Nat) (i : Issue) : Painted :=
  let p := i.position
  severitySpan i.severity ++ plain (": " ++ i.message ++ "  ") ++ paint .dimCyan i.rule.name ++
    plain "\n  " ++ paint .blue "-->" ++
    plain (" " ++ i.file ++ ":" ++ toString p.line ++ ":" ++ toString p.col ++ "\n") ++
  (match i.sourceLine? with
    | some line => sourceLines gutter i.severity p line
    | none => []) ++
  (match i.details? with
    | some details => spaces gutter ++ plain " " ++ paint .blue "=" ++ plain " " ++
        paint .bold "note:" ++ plain (" " ++ details ++ "\n")
    | none => []) ++
  plain "\n"

/-! ## reports -/

/-- How many of the issues are errors. -/
def errorCount (issues : List Issue) : Nat := issues.countP fun i => i.severity = .error

/-- How many of the issues are warnings. -/
def warningCount (issues : List Issue) : Nat := issues.length - errorCount issues

/-- How many issues there are. -/
def summary (issues : List Issue) : Painted :=
  let total := issues.length
  let errors := errorCount issues
  let warnings := warningCount issues
  paint .red failureMark ++
    plain (" " ++ toString total ++ " " ++ counted total "problem" "problems" ++
      " (" ++ toString errors ++ " ") ++
    paint .red (counted errors "error" "errors") ++ plain (", " ++ toString warnings ++ " ") ++
    paint .yellow (counted warnings "warning" "warnings") ++ plain ")\n"

/-- The room that the line numbers of source files need. -/
def gutterWidth (issues : List Issue) : Nat :=
  let lines := issues.filterMap fun i => i.sourceLine?.map fun _ => i.position.line
  (lines.max?.map fun n => (toString n).length).getD 1

/-- The text of some issues; nothing is said when there are none. -/
def issuesText (issues : List Issue) : Painted :=
  if issues.isEmpty then []
  else issues.flatMap (issueText (gutterWidth issues)) ++ summary issues

/-- The text when there are no issues. -/
def successText (sourceFiles localeFiles : Nat) : Painted :=
  paint .green successMark ++ plain " " ++
    paint .green ("Checked " ++ toString sourceFiles ++ " source " ++
      counted sourceFiles "file" "files" ++ ", " ++ toString localeFiles ++ " locale " ++
      counted localeFiles "file" "files" ++ " - no issues found") ++
    plain "\n"

end LocaleAudit.Report
