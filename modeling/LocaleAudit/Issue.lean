import LocaleAudit.Failure
import LocaleAudit.Usage

/-!
# LocaleAudit.Issue

Issues, which are what a check reports. They are ordered by file, place, rule and message.
-/

namespace LocaleAudit

open Text

/-- How grave an issue is. -/
inductive Severity
  | error | warning
deriving Repr, DecidableEq

/-- The name of a severity. -/
def Severity.name : Severity → String
  | error => "error"
  | warning => "warning"

/-- What an issue is about. -/
inductive Rule
  | configError | missingKey | unusedKey | parseError
deriving Repr, DecidableEq

namespace Rule

/-- The name of a rule. -/
def name : Rule → String
  | configError => "config-error"
  | missingKey => "missing-key"
  | unusedKey => "unused-key"
  | parseError => "parse-error"

/-- The place of a rule in the order of issues. -/
def rank : Rule → Nat
  | configError => 0
  | missingKey => 1
  | unusedKey => 2
  | parseError => 3

end Rule

/-! ## issues -/

/-- A key in a catalog. -/
structure MessageContext where
  /-- The file, as it is shown. -/
  file : String
  /-- The place of the name in the file. -/
  position : Position
  /-- The key, without the locale. -/
  key : String
  /-- The locale. -/
  locale : String
  /-- The value as text. -/
  value : String
deriving Repr, DecidableEq

/-- An issue. -/
inductive Issue
  /-- The configuration is at fault, which is told of a file. -/
  | configError (file error : String)
  /-- A locale lacks a key that is used. -/
  | missingKey (context : SourceContext) (key locale : String)
  /-- Nothing uses a key of a catalog. -/
  | unusedKey (context : MessageContext)
  /-- A file cannot be read or parsed. -/
  | parseError (file error : String)
deriving Repr, DecidableEq

namespace Issue

/-- What the issue is about. -/
def rule : Issue → Rule
  | configError _ _ => .configError
  | missingKey _ _ _ => .missingKey
  | unusedKey _ => .unusedKey
  | parseError _ _ => .parseError

/-- How grave the issue is. -/
def severity : Issue → Severity
  | unusedKey _ => .warning
  | configError _ _ | missingKey _ _ _ | parseError _ _ => .error

/-- The file that the issue is in. -/
def file : Issue → String
  | configError file _ | parseError file _ => file
  | missingKey context _ _ => context.file
  | unusedKey context => context.file

/-- The place of the issue; an issue of a whole file is at its start. -/
def position : Issue → Position
  | configError _ _ | parseError _ _ => Position.start
  | missingKey context _ _ => context.position
  | unusedKey context => context.position

/-- What is said about the issue. -/
def message : Issue → String
  | configError _ error | parseError _ error => error
  | missingKey _ key locale => "'" ++ key ++ "' does not exist in '" ++ locale ++ "'"
  | unusedKey context => "unused '" ++ context.key ++ "' key"

/-- What is said below the issue. -/
def details? : Issue → Option String
  | unusedKey context => some ("in " ++ context.locale ++ " (" ++ context.value ++ ")")
  | configError _ _ | missingKey _ _ _ | parseError _ _ => none

/-- The line of the source file that the issue is in. -/
def sourceLine? : Issue → Option String
  | missingKey context _ _ => some context.sourceLine
  | configError _ _ | unusedKey _ | parseError _ _ => none

/-- The issue of a failure; a failure of the configuration is told of the given file. -/
def ofFailure (configFile : String) : Failure → Issue
  | .configuration message => configError configFile message
  | .parse file message => parseError file message

/-! ## order -/

/-- The order of issues. -/
def compare (a b : Issue) : Ordering :=
  (compareOfLessAndEq a.file b.file).then <|
  (Ord.compare a.position.line b.position.line).then <|
  (Ord.compare a.position.col b.position.col).then <|
  (Ord.compare a.rule.rank b.rule.rank).then <|
  compareOfLessAndEq a.message b.message

/-- The first issue is not behind the second. -/
def notBehind (a b : Issue) : Bool := a.compare b != .gt

/-- Issues in order; those that are equal in the order keep theirs. -/
def sort (issues : List Issue) : List Issue := issues.mergeSort notBehind

end Issue

end LocaleAudit
