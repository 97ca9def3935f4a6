import LocaleAudit.Script.Parser.Basic

/-!
# LocaleAudit.Script.Parser.Template

Templates: pieces of text between back quotes, with substitutions between them. What stands in a
substitution is left open, as templates occur among expressions and among types.
-/

namespace LocaleAudit.Script.Parser

/-- The piece of text behind the current token, which is a back quote or a closing brace. -/
def templatePiece : Parser Chunk := do
  let c ← get
  match templateChunk c.rest with
  | none => fail
  | some piece =>
    set (Cursor.behind (c.rest.drop piece.length) (c.restStart + piece.length))
    return piece

/-- The pieces and substitutions of a template, with at most the given number of pieces. -/
def templateUpTo (substitution : Parser Tree) : Nat → Parser (List Chunk × List Tree)
  | 0 => fail
  | n + 1 => do
    let piece ← templatePiece
    if piece.closes then return ([piece], [])
    let t ← substitution
    unless ← isMark .braceR do fail
    let (pieces, ts) ← templateUpTo substitution n
    return (piece :: pieces, t :: ts)

/-- The pieces and substitutions of the template that starts at the current back quote. -/
def templateParts (substitution : Parser Tree) : Parser (List Chunk × List Tree) := do
  templateUpTo substitution ((← read).size - (← here) + 2)

/-- A template as an expression. Only behind a tag may it hold a malformed escape. -/
def template (tagged : Bool) (substitution : Parser Tree) : Parser Tree := do
  let (pieces, ts) ← templateParts substitution
  if !tagged && pieces.any (·.units.isNone) then fail
  return .template (pieces.head?.bind fun piece => piece.units.bind textOfUnits) ts

end LocaleAudit.Script.Parser
