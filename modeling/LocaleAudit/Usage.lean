import LocaleAudit.Text.Lines

/-!
# LocaleAudit.Usage

Uses of translation keys in source files.
-/

namespace LocaleAudit

open Text

/-- A place in a source file, with the line it is on. -/
structure SourceContext where
  /-- The file, as it is shown. -/
  file : String
  /-- The place in the file. -/
  position : Position
  /-- The text of the line. -/
  sourceLine : String
deriving Repr, DecidableEq, Inhabited

/-- A key that a source file uses, and where. -/
structure Usage where
  /-- The key. -/
  key : String
  /-- Where it is used. -/
  context : SourceContext
deriving Repr, DecidableEq, Inhabited

/-- The place in a file whose text is given, at a position in it. -/
def SourceContext.at (file : String) (text : List Char) (position : Position) : SourceContext :=
  ⟨file, position, String.ofList (lineText text position.line)⟩

end LocaleAudit
