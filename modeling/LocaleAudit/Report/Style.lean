/-!
# LocaleAudit.Report.Style

Text in colors. A painted text is a list of spans, some of which have a style; it is written with
the escape sequences of terminals or without.
-/

namespace LocaleAudit.Report

/-- How a span of text looks. -/
inductive Style
  | plain | red | yellow | green | blue | bold | boldRed | boldYellow | dimCyan
deriving Repr, DecidableEq

/-- The codes of a style. -/
def Style.codes : Style → List Char
  | plain => []
  | red => "31".toList
  | yellow => "33".toList
  | green => "32".toList
  | blue => "34".toList
  | bold => "1".toList
  | boldRed => "1;31".toList
  | boldYellow => "1;33".toList
  | dimCyan => "2;36".toList

/-- A text with a style. -/
structure Span where
  /-- How it looks. -/
  style : Style
  /-- The text. -/
  text : List Char
deriving Repr, DecidableEq

/-- A text in colors. -/
abbrev Painted := List Span

/-- A text in a style. -/
def paint (style : Style) (text : String) : Painted := [⟨style, text.toList⟩]

/-- A text without a style. -/
def plain (text : String) : Painted := paint .plain text

/-- The escape sequence with the given codes. -/
def escape (codes : List Char) : List Char := '\x1b' :: '[' :: (codes ++ ['m'])

/-- A span with its style, or without. -/
def Span.render (color : Bool) (s : Span) : List Char :=
  if color && s.style != .plain then escape s.style.codes ++ s.text ++ escape ['0'] else s.text

/-- A painted text in colors, or without. -/
def render (color : Bool) (p : Painted) : List Char := p.flatMap (Span.render color)

/-- A setting is there, and is not `0`. -/
def isOn (setting : Option String) : Bool := setting.any (· ≠ "0")

/-- Colors are written if they are forced; otherwise only to a terminal, unless they are ruled out
or switched off. -/
def wantsColor (forced ruledOut switched : Option String) (terminal : Bool) : Bool :=
  isOn forced || (ruledOut.isNone && (switched.isNone || isOn switched) && terminal)

end LocaleAudit.Report
