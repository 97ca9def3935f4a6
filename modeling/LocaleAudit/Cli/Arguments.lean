import LocaleAudit.Run
import LocaleAudit.Text.Lines

/-!
# LocaleAudit.Cli.Arguments

The command line. Arguments are read from left to right, and the first one that is wrong, or that
asks for help, settles what the command line means.
-/

namespace LocaleAudit.Cli

open Text LocaleAudit.Locale

/-- What a command line asks for. -/
inductive Request
  /-- To check a project. -/
  | check (checks : List Check) (options : Options) (format : Report.Format)
  /-- To make a configuration file. -/
  | init
  /-- To show help, or the version. -/
  | help
  /-- Something that cannot be done. -/
  | misuse
deriving Repr, DecidableEq

/-! ## options of a check -/

/-- An option with a value. -/
inductive ValueOption
  | root | localeDir | localeKey | src | extensions | format
deriving Repr, DecidableEq

/-- The option of the given name. -/
def ValueOption.ofName? : List Char → Option ValueOption := fun name =>
  [("root", root), ("locale-dir", localeDir), ("locale-key", localeKey), ("src", src),
   ("extensions", extensions), ("format", format)].lookup (String.ofList name)

/-- What has been read of a check. -/
structure Reading where
  /-- The rules. -/
  checks : List Check := []
  /-- The options. -/
  options : Options := {}
  /-- The format. -/
  format : Report.Format := .text
  /-- The options that have been given and must not be given again. -/
  given : List ValueOption := []
  /-- Details of the run are asked for. -/
  verbose : Bool := false
deriving Repr, DecidableEq

/-- The rule of the given name. -/
def check? : String → Option Check
  | "unused" => some .unused
  | "missing" => some .missing
  | _ => none

namespace Reading

/-- Takes a rule. -/
def addCheck? (r : Reading) (name : String) : Option Reading :=
  (check? name).map fun c => { r with checks := r.checks ++ [c] }

/-- Takes the wish for details, which can be told once. -/
def addVerbose? (r : Reading) : Option Reading :=
  if r.verbose then none else some { r with verbose := true }

/-- Takes an option, of which only the extensions can be given again. -/
def addOption? (r : Reading) (o : ValueOption) (value : String) : Option Reading := do
  guard (!r.given.contains o)
  let options := r.options
  let r := if o = .extensions then r else { r with given := o :: r.given }
  match o with
  | .root =>
    if value.isEmpty then none else some { r with options := { options with root := value } }
  | .localeDir => some { r with options := { options with localeDir := some value } }
  | .localeKey => match value with
    | "file" => some { r with options := { options with localeKey := some .file } }
    | "key" => some { r with options := { options with localeKey := some .key } }
    | _ => none
  | .src => some { r with options := { options with src := some value } }
  | .extensions =>
    let listed := (pieces ',' value.toList).map String.ofList
    some { r with options := { options with extensions := options.extensions ++ listed } }
  | .format => match value with
    | "text" => some { r with format := .text }
    | "json" => some { r with format := .json }
    | _ => none

/-- What has been read, as a request. -/
def request (r : Reading) : Request := .check r.checks r.options r.format

end Reading

/-! ## reading -/

/-- What the letters behind a single hyphen do: they end the reading, or leave it to go on. -/
def shortFlags (r : Reading) : List Char → Except Request Reading
  | [] => .ok r
  | 'v' :: cs => match r.addVerbose? with
    | some r => shortFlags r cs
    | none => .error .misuse
  | 'h' :: _ => .error .help
  | _ :: _ => .error .misuse

/-- An argument, as it is written. -/
inductive Shape
  /-- Two hyphens and no more. -/
  | separator
  /-- Two hyphens and a name, perhaps with a value behind an equals sign. -/
  | long (name : List Char) (value : Option String)
  /-- A hyphen and letters. -/
  | short (letters : List Char)
  /-- Anything else. -/
  | plain

/-- The shape of an argument. -/
def shapeOf (argument : String) : Shape :=
  match argument.toList with
  | ['-', '-'] => .separator
  | '-' :: '-' :: cs =>
    let name := cs.takeWhile (· ≠ '=')
    .long name (if name.length < cs.length then
      some (String.ofList (cs.drop (name.length + 1))) else none)
  | '-' :: c :: cs => .short (c :: cs)
  | _ => .plain

/-- Takes rules only. -/
def readChecks (r : Reading) : List String → Request
  | [] => r.request
  | a :: as => match r.addCheck? a with
    | some r => readChecks r as
    | none => .misuse

/-- Reads the arguments of a check; an option may still lack its value. -/
def readCheck (r : Reading) (lacking : Option ValueOption) : List String → Request
  | [] => if lacking.isSome then .misuse else r.request
  | a :: as =>
    match lacking, shapeOf a with
    | some o, .plain => match r.addOption? o a with
      | some r => readCheck r none as
      | none => .misuse
    | some _, _ => .misuse
    | none, .separator => readChecks r as
    | none, .plain => match r.addCheck? a with
      | some r => readCheck r none as
      | none => .misuse
    | none, .short letters => match shortFlags r letters with
      | .ok r => readCheck r none as
      | .error request => request
    | none, .long name value =>
      match ValueOption.ofName? name, value with
      | some o, some value => match r.addOption? o value with
        | some r => readCheck r none as
        | none => .misuse
      | some o, none => readCheck r (some o) as
      | none, some _ => .misuse
      | none, none =>
        if name = "help".toList then .help
        else if name = "verbose".toList then match r.addVerbose? with
          | some r => readCheck r none as
          | none => .misuse
        else .misuse

/-- Reads the arguments of a command that has none. -/
def readInit : List String → Request
  | [] => .init
  | a :: as =>
    match shapeOf a with
    | .separator => if as.isEmpty then .init else .misuse
    | .short ('h' :: _) => .help
    | .long name none => if name = "help".toList then .help else .misuse
    | _ => .misuse

/-- Reads the names of the command that help is asked for. -/
def readHelp : List String → Request
  | [] | ["check"] | ["init"] | ["help"] => .help
  | _ => .misuse

/-- What a command line asks for; without a command it is help. -/
def request : List String → Request
  | [] => .help
  | a :: as =>
    match shapeOf a with
    | .separator => if as.isEmpty then .help else .misuse
    | .short (c :: _) => if c = 'h' || c = 'V' then .help else .misuse
    | .long name none =>
      if ["help", "version"].contains (String.ofList name) then .help else .misuse
    | .short [] | .long _ _ => .misuse
    | .plain => match a with
      | "check" => readCheck {} none as
      | "init" => readInit as
      | "help" => readHelp as
      | _ => .misuse

end LocaleAudit.Cli
