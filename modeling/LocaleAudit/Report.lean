import LocaleAudit.Report.Record
import LocaleAudit.Report.Text

/-!
# LocaleAudit.Report

The outcome of a check: its issues in order, and how many files it has looked at.
-/

namespace LocaleAudit

/-- How a report is written. -/
inductive Report.Format
  /-- For people. -/
  | text
  /-- For programs. -/
  | json
deriving Repr, DecidableEq

/-- How a command ends. -/
inductive ExitStatus
  /-- Without errors. -/
  | success
  /-- With errors among the issues. -/
  | failure
  /-- The command could not do its work. -/
  | error
deriving Repr, DecidableEq

/-- The exit code of a status. -/
def ExitStatus.code : ExitStatus → Nat
  | success => 0
  | failure => 1
  | error => 2

/-- The outcome of a check. -/
structure Outcome where
  /-- The issues, in order. -/
  issues : List Issue
  /-- How many source files there are. -/
  sourceFiles : Nat
  /-- How many catalogs there are. -/
  localeFiles : Nat
  /-- Errors make the command fail. -/
  exitOnErrors : Bool
deriving Repr, DecidableEq

namespace Outcome

/-- The outcome with the given issues, which are put in order. -/
def ofIssues (issues : List Issue) (sourceFiles localeFiles : Nat) (exitOnErrors : Bool) :
    Outcome :=
  ⟨Issue.sort issues, sourceFiles, localeFiles, exitOnErrors⟩

/-- How many errors there are. -/
def errors (o : Outcome) : Nat := Report.errorCount o.issues

/-- How many warnings there are. -/
def warnings (o : Outcome) : Nat := Report.warningCount o.issues

/-- Errors make a command fail, if they are meant to; warnings do not. -/
def status (o : Outcome) : ExitStatus :=
  if o.exitOnErrors && o.errors > 0 then .failure else .success

/-- The report for people. -/
def text (color : Bool) (o : Outcome) : List Char :=
  Report.render color (Report.issuesText o.issues ++
    if o.issues.isEmpty then Report.successText o.sourceFiles o.localeFiles else [])

/-- The report for programs. -/
def json (o : Outcome) : List Char := Report.recordsText o.issues

/-- The report in a format. -/
def write (format : Report.Format) (color : Bool) (o : Outcome) : List Char :=
  match format with
  | .text => o.text color
  | .json => o.json

end Outcome

end LocaleAudit
