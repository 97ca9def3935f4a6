import LocaleAudit.Cell
import LocaleAudit.Project
import LocaleAudit.Report
import LocaleAudit.Rule.Missing
import LocaleAudit.Rule.Unused

/-!
# LocaleAudit.Run

A run over a project. What several rules need is worked out when it is first asked for, from the
files as they are then, and kept for the rest of the run.
-/

namespace LocaleAudit

open LocaleAudit.Locale

/-- What a run has worked out so far. -/
structure Memory where
  /-- The catalogs. -/
  library : Cell Library := {}
  /-- The keys that source files use. -/
  used : Cell UsedKeys := {}
  /-- The keys that catalogs link to. -/
  linked : Cell KeySet := {}

/-- A step of a run. -/
abbrev Run (α : Type) := StateM Memory α

namespace Run

variable (p : Project) (tree : Entry)

/-! ## what is kept -/

/-- The catalogs. -/
def library : Run Library := fun m =>
  let (l, cell) := m.library.force fun _ => p.library tree
  (l, { m with library := cell })

/-- The keys that source files use. -/
def used : Run UsedKeys := fun m =>
  let (u, cell) := m.used.force fun _ => p.usedKeys tree
  (u, { m with used := cell })

/-- The keys that catalogs link to. -/
def linked : Run KeySet := fun m =>
  match m.linked.value with
  | some keys => (keys, m)
  | none =>
    let (l, m) := library p tree m
    (l.linkedKeys, { m with linked := ⟨some l.linkedKeys⟩ })

/-- The keys that source files use, if that has been worked out. -/
def usedSoFar : Run (Option UsedKeys) := return (← get).used.value

/-! ## rules -/

/-- What is wrong with the locale sources. -/
def problem? : Run (Option Failure) := return (← library p tree).problem?

/-- The keys that catalogs should have: those used and those linked to. -/
def expected : Run KeySet := do
  let used ← used p tree
  let linked ← linked p tree
  return used.keys.union linked

/-- The issues of missing keys. -/
def missing : Run (List Issue) := do
  match ← problem? p tree with
  | some _ => return []
  | none =>
    let used ← used p tree
    let library ← library p tree
    return Rule.missingIssues used library.catalogs

/-- The issues of unused keys. -/
def unused : Run (List Issue) := do
  match ← problem? p tree with
  | some _ => return []
  | none =>
    let expected ← expected p tree
    let library ← library p tree
    return Rule.unusedIssues expected library.catalogs

/-- The failures of catalogs and those of source files. A problem of the sources is the only
failure, and nothing is scanned then. -/
def failures : Run (List Failure × List Failure) := do
  match ← problem? p tree with
  | some failure => return ([failure], [])
  | none =>
    let library ← library p tree
    let used ← used p tree
    return (library.failures, used.failures)

/-- The issues of failures. -/
def failureIssues : Run (List Issue) := do
  let (ofCatalogs, ofSources) ← failures p tree
  return (ofCatalogs ++ ofSources).map (Issue.ofFailure p.configShown)

end Run

/-! ## checks -/

/-- A rule that can be asked for. -/
inductive Check
  | unused | missing
deriving Repr, DecidableEq

namespace Check

/-- The rules that are checked unless some are named. -/
def all : List Check := [unused, missing]

/-- The issues of a rule. -/
def issues (p : Project) (tree : Entry) : Check → Run (List Issue)
  | unused => Run.unused p tree
  | missing => Run.missing p tree

/-- The issues of rules, one after the other. -/
def issuesOf (p : Project) (tree : Entry) : List Check → Run (List Issue)
  | [] => return []
  | c :: cs => do
    let first ← c.issues p tree
    let others ← issuesOf p tree cs
    return first ++ others

end Check

/-- The outcome of checking some rules, or all if none are named. -/
def Run.outcome (p : Project) (tree : Entry) (checks : List Check) : Run Outcome := do
  let found ← Check.issuesOf p tree (if checks.isEmpty then Check.all else checks)
  let failed ← Run.failureIssues p tree
  let used ← Run.usedSoFar
  let library ← Run.library p tree
  return .ofIssues (found ++ failed) ((used.map (·.fileCount)).getD 0) library.catalogs.length true

/-- The outcome of a check of a project. -/
def Project.check (p : Project) (tree : Entry) (checks : List Check) : Outcome :=
  (Run.outcome p tree checks {}).1

end LocaleAudit
