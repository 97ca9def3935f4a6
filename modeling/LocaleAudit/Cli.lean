import LocaleAudit.Cli.Arguments

/-!
# LocaleAudit.Cli

What the commands do: the text that they write, the file that they make, and how they end.
-/

namespace LocaleAudit.Cli

/-- The reply to a command line. -/
inductive Reply
  /-- Help is shown. -/
  | help
  /-- The command line makes no sense. -/
  | misuse
  /-- A command has been carried out: how it ends, what it writes to both outputs, and the file that
  it makes. -/
  | done (status : ExitStatus) (output errors : String) (file : Option (String × String))
deriving Repr, DecidableEq

namespace Reply

/-- The exit code. -/
def code : Reply → Nat
  | help => ExitStatus.success.code
  | misuse => ExitStatus.error.code
  | done status _ _ _ => status.code

/-- The reply of a command that could not do its work. -/
def failed (reason : String) : Reply := done .error "" ("Error: " ++ reason ++ "\n") none

end Reply

/-- Makes a configuration file, unless there is one. -/
def makeConfig (tree : Entry) (color : Bool) : Reply :=
  if Config.exists? tree Config.fileName then
    Reply.failed (Config.fileName ++ " already exists")
  else
    let painted := Report.paint .green Report.successMark ++ Report.plain " " ++
      Report.paint .green ("Created " ++ Config.fileName) ++ Report.plain "\n"
    .done (Outcome.ofIssues [] 0 0 true).status (String.ofList (Report.render color painted)) ""
      (some (Config.fileName, String.ofList Config.initial.text))

/-- Carries out what a command line asks for. -/
def reply (tree : Entry) (color : Bool) (arguments : List String) : Reply :=
  match request arguments with
  | .help => .help
  | .misuse => .misuse
  | .init => makeConfig tree color
  | .check checks options format =>
    match Project.ofOptions tree options with
    | .error reason => Reply.failed reason
    | .ok project =>
      let outcome := project.check tree checks
      .done outcome.status (String.ofList (outcome.write format color)) "" none

end LocaleAudit.Cli
