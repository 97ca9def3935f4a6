import LocaleAudit.Cli

/-!
# LocaleAudit.Main

The program: it reads the working directory, carries out the command line on it, and writes what
the command says.
-/

namespace LocaleAudit.Main

open LocaleAudit

/-- The text that is shown as help. -/
def helpText : String := "\n".intercalate [
  "Finds missing and unused locale keys.",
  "",
  "Usage: keycheck [COMMAND]",
  "",
  "Commands:",
  "  check [unused] [missing]  Check for missing and unused locale keys",
  "  init                      Write a configuration file",
  "  help                      Show this text",
  "",
  "Options of check:",
  "  --root <DIR>              The root directory",
  "  --locale-dir <PATTERN>    The pattern of the locale files",
  "  --locale-key <file|key>   Where the locales of a file are named",
  "  --src <DIR>               The directory to scan",
  "  --extensions <LIST>       The endings of the names of source files",
  "  --format <text|json>      The format of the report",
  "  -v, --verbose             Tell more",
  ""]

/-- What is said about a command line that makes no sense. -/
def misuseText : String := "The arguments make no sense; try --help.\n"

/-- The content that bytes stand for. -/
def decode (bytes : ByteArray) : Content :=
  match String.fromUTF8? bytes with
  | some text => .text text.toList
  | none => .binary

mutual

/-- Reads a file, or a directory and all below it. -/
partial def readEntry (e : IO.FS.DirEntry) : IO Entry := do
  if ← e.path.isDir then
    return .directory (← readEntries (← e.path.readDir).toList)
  else
    try return .file (decode (← IO.FS.readBinFile e.path))
    catch e => return .file (.unreadable e.toString)

/-- Reads the entries of a directory and puts them in order. -/
partial def readEntries (es : List IO.FS.DirEntry) : IO (List (String × Entry)) := do
  let named ← es.mapM fun e => do return (e.fileName, ← readEntry e)
  return named.foldl (fun entries (name, e) => Entry.put name e entries) []

end

/-- Whether to write colors to the standard output. -/
def wantsColor : IO Bool := do
  let terminal ← (← IO.getStdout).isTty
  return Report.wantsColor (← IO.getEnv "CLICOLOR_FORCE") (← IO.getEnv "NO_COLOR")
    (← IO.getEnv "CLICOLOR") terminal

end LocaleAudit.Main

open LocaleAudit in
/-- Carries out a command line on the working directory. -/
def main (arguments : List String) : IO UInt32 := do
  let tree := Entry.directory (← Main.readEntries (← (← IO.currentDir).readDir).toList)
  let reply := Cli.reply tree (← Main.wantsColor) arguments
  match reply with
  | .help => IO.print Main.helpText
  | .misuse => IO.eprint Main.misuseText
  | .done _ output errors made =>
    IO.print output
    IO.eprint errors
    if let some (path, content) := made then IO.FS.writeFile path content
  return reply.code.toUInt32
