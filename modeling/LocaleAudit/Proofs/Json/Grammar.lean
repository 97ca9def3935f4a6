import LocaleAudit.Json.Node
import LocaleAudit.Text.Utf16

/-!
# LocaleAudit.Proofs.Json.Grammar

The grammar of JSON (RFC 8259) as relations between a text and what it stands for, without a
reader.  A relation for something that has a place is told the offset where its text starts, so
that the spans of a node are part of what is derived.

* `Document` — a whole text and the value that it is written for.
-/

namespace LocaleAudit.Json.Grammar

open Text

/-- What texts stand for something, given the offset where they start. -/
abbrev Reading (α : Type) := Nat → List Char → α → Prop

/-- The span of a text that starts at an offset. -/
def spanOf (o : Nat) (cs : List Char) : Span := ⟨o, o + byteLength cs⟩

/-- Blanks, which may stand between tokens. -/
def Blanks (cs : List Char) : Prop := ∀ c ∈ cs, c = ' ' ∨ c = '\n' ∨ c = '\r' ∨ c = '\t'

/-! ## numbers -/

/-- One decimal digit or more. -/
def Digits (cs : List Char) : Prop := cs ≠ [] ∧ ∀ c ∈ cs, c.isDigit = true

/-- The whole part of a number: a zero, or digits that do not start with one. -/
inductive Whole : List Char → Prop
  | zero : Whole ['0']
  | digits {cs : List Char} (hdigits : Digits cs) (hhead : cs.head? ≠ some '0') : Whole cs

/-- The fraction of a number, which may be missing. -/
inductive Fraction : List Char → Prop
  | none : Fraction []
  | some {ds : List Char} (hdigits : Digits ds) : Fraction ('.' :: ds)

/-- The exponent of a number, which may be missing. -/
inductive Exponent : List Char → Prop
  | none : Exponent []
  | some {mark : Char} {sign ds : List Char} (hmark : mark = 'e' ∨ mark = 'E')
      (hsign : sign = [] ∨ sign = ['+'] ∨ sign = ['-']) (hdigits : Digits ds) :
      Exponent (mark :: (sign ++ ds))

/-- A number. -/
inductive Numeral : List Char → Prop
  | intro {sign whole fraction exponent : List Char} (hsign : sign = [] ∨ sign = ['-'])
      (hwhole : Whole whole) (hfraction : Fraction fraction) (hexponent : Exponent exponent) :
      Numeral (sign ++ whole ++ fraction ++ exponent)

/-! ## strings -/

/-- The characters behind a backslash that stand for one character, and that character. -/
def shortEscapes : List (Char × Char) :=
  [('"', '"'), ('\\', '\\'), ('/', '/'), ('b', '\x08'), ('f', '\x0c'), ('n', '\n'), ('r', '\r'),
    ('t', '\t')]

/-- A hexadecimal digit, in lower or upper case, and its value. -/
def HexDigit (c : Char) (x : Nat) : Prop :=
  "0123456789abcdef".toList[x]? = some c ∨ "0123456789ABCDEF".toList[x]? = some c

/-- Hexadecimal digits, and the number that they make behind the digits of another number. -/
inductive HexDigits : Nat → List Char → Nat → Prop
  | nil {v : Nat} : HexDigits v [] v
  | cons {v x u : Nat} {c : Char} {ds : List Char} (hdigit : HexDigit c x)
      (hrest : HexDigits (v * 16 + x) ds u) : HexDigits v (c :: ds) u

/-- The content of a string literal, and the UTF-16 code units that it stands for: a character
stands for its own units, and an escape by number for the unit that it names. -/
inductive Contents : List Char → List Nat → Prop
  | nil : Contents [] []
  | plain {c : Char} {cs : List Char} {us : List Nat} (hquote : c ≠ '"') (hslash : c ≠ '\\')
      (hcontrol : 0x20 ≤ c.toNat) (hrest : Contents cs us) :
      Contents (c :: cs) (Utf16.unitsOf c.toNat ++ us)
  | short {c d : Char} {cs : List Char} {us : List Nat} (hshort : (c, d) ∈ shortEscapes)
      (hrest : Contents cs us) : Contents ('\\' :: c :: cs) (d.toNat :: us)
  | unicode {ds cs : List Char} {u : Nat} {us : List Nat} (hlength : ds.length = 4)
      (hdigits : HexDigits 0 ds u) (hrest : Contents cs us) :
      Contents ('\\' :: 'u' :: (ds ++ cs)) (u :: us)

/-- A string literal with its quotes, and its value.  Half of a surrogate pair without its other
half stands for the replacement character. -/
inductive Literal : List Char → String → Prop
  | intro {content : List Char} {units : List Nat} (hcontent : Contents content units) :
      Literal ('"' :: (content ++ ['"'])) (String.ofList (Utf16.decodeLossy units))

/-! ## arrays and objects -/

/-- One item or more, with commas between them and blanks around them. -/
inductive Items {α : Type} (item : Reading α) : Reading (List α)
  | one {o : Nat} {before cs after : List Char} {a : α} (hbefore : Blanks before)
      (hitem : item (o + byteLength before) cs a) (hafter : Blanks after) :
      Items item o (before ++ cs ++ after) [a]
  | cons {o : Nat} {before cs after rest : List Char} {a : α} {as : List α}
      (hbefore : Blanks before) (hitem : item (o + byteLength before) cs a)
      (hafter : Blanks after)
      (hrest : Items item (o + byteLength (before ++ cs ++ after ++ [','])) rest as) :
      Items item o (before ++ cs ++ after ++ [','] ++ rest) (a :: as)

/-- Any number of items in brackets. -/
inductive Bracketed {α : Type} (opening closing : Char) (item : Reading α) : Reading (List α)
  | empty {o : Nat} {blanks : List Char} (hblanks : Blanks blanks) :
      Bracketed opening closing item o (opening :: (blanks ++ [closing])) []
  | items {o : Nat} {cs : List Char} {as : List α}
      (hitems : Items item (o + opening.utf8Size) cs as) :
      Bracketed opening closing item o (opening :: (cs ++ [closing])) as

/-- A member of an object: its name, a colon and its value. -/
inductive Member (value : Reading Node) : Reading (Json.Member Node)
  | intro {o : Nat} {literal before after cs : List Char} {name : String} {node : Node}
      (hliteral : Literal literal name) (hbefore : Blanks before) (hafter : Blanks after)
      (hvalue : value (o + byteLength (literal ++ before ++ [':'] ++ after)) cs node) :
      Member value o (literal ++ before ++ [':'] ++ after ++ cs)
        ⟨⟨name, spanOf o literal⟩, node,
          spanOf o (literal ++ before ++ [':'] ++ after ++ cs)⟩

/-! ## values -/

/-- A value, with its place and those of its parts.  Members and elements come in the order of the
text, and a member that is named twice is there twice. -/
inductive Value : Reading Node
  | null {o : Nat} : Value o "null".toList (.null (spanOf o "null".toList))
  | true {o : Nat} : Value o "true".toList (.bool .true (spanOf o "true".toList))
  | false {o : Nat} : Value o "false".toList (.bool .false (spanOf o "false".toList))
  | number {o : Nat} {cs : List Char} (hnumber : Numeral cs) :
      Value o cs (.number (String.ofList cs) (spanOf o cs))
  | string {o : Nat} {cs : List Char} {s : String} (hstring : Literal cs s) :
      Value o cs (.string s (spanOf o cs))
  | array {o : Nat} {cs : List Char} {ns : List Node}
      (helements : Bracketed '[' ']' Value o cs ns) : Value o cs (.array ns (spanOf o cs))
  | object {o : Nat} {cs : List Char} {ms : List (Json.Member Node)}
      (hmembers : Bracketed '{' '}' (Member Value) o cs ms) :
      Value o cs (.object ms (spanOf o cs))

/-! ## documents -/

mutual

/-- How many levels of values lie below a value. -/
def height : Node → Nat
  | .array ns _ => heightOfElements ns
  | .object ms _ => heightOfMembers ms
  | _ => 0

/-- How many levels the elements of an array make. -/
def heightOfElements : List Node → Nat
  | [] => 0
  | n :: ns => max (height n + 1) (heightOfElements ns)

/-- How many levels the members of an object make. -/
def heightOfMembers : List (Json.Member Node) → Nat
  | [] => 0
  | ⟨_, n, _⟩ :: ms => max (height n + 1) (heightOfMembers ms)

end

/-- A text and the value that it is written for: a mark that may be missing, and the value between
blanks, with at most 512 levels below it. -/
inductive Document : List Char → Node → Prop
  | intro {mark before cs after : List Char} {node : Node} (hmark : mark = [] ∨ mark = ['\ufeff'])
      (hbefore : Blanks before) (hvalue : Value (byteLength (mark ++ before)) cs node)
      (hafter : Blanks after) (hheight : height node ≤ 512) :
      Document (mark ++ before ++ cs ++ after) node

end LocaleAudit.Json.Grammar
