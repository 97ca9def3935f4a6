/-!
# LocaleAudit.Failure

What keeps a run, or one of its files, from being checked.
-/

namespace LocaleAudit

/-- A failure of the configuration or of one file. -/
inductive Failure
  /-- The locale sources are missing, malformed, or without any locale. -/
  | configuration (message : String)
  /-- A file cannot be read or parsed. -/
  | parse (file message : String)
deriving Repr, DecidableEq

namespace Failure

/-- The failure is that of a file. -/
def isParse : Failure → Bool
  | parse _ _ => true
  | configuration _ => false

/-- A failure in one line. -/
def display : Failure → String
  | configuration message => message
  | parse file message => file ++ ": " ++ message

/-- No locale source is configured. -/
def noSource : Failure :=
  configuration ("No locale source configured. " ++
    "Set 'localeDir' in .keycheckrc.json or pass --locale-dir.")

/-- The sources with the given patterns have no locale. -/
def noLocales (patterns : List String) : Failure :=
  configuration ("No locale messages found for '" ++ "', '".intercalate patterns ++ "'")

/-- What is said about a file that is not text. -/
def notText : String := "stream did not contain valid UTF-8"

/-- What is said about a directory in the place of a file. -/
def isDirectory : String := "Is a directory (os error 21)"

end Failure

end LocaleAudit
