import LocaleAudit.Text.Category
import LocaleAudit.Text.Utf16

/-!
# LocaleAudit.Script.Token

The tokens of scripts and how they are told apart. `Token.scan` gives the token at the start of a
text together with its length in characters; `gapLength` measures the blanks and comments in front
of it. Whether a slash divides or opens a regular expression, and whether a brace closes a block or
a substitution, is for the grammar to say: `regexLength`, `templateChunk` and the JSX scanners
measure what stands there in the second reading.
-/

namespace LocaleAudit.Script

open Text

/-! ## marks -/

/-- Punctuation and operators. Operators that the grammar does not tell apart share a mark. -/
inductive Mark
  | braceL | braceR | parenL | parenR | bracketL | bracketR
  | semicolon | comma | colon | dot | spread | question | chain | arrow
  | tilde | bang | atSign
  | assign | compoundAssign | increment | decrement
  | plus | minus | star | power | slash | slashAssign | percent
  | less | lessEqual | shiftLeft | greater | greaterEqual | shiftRight
  | and | or | coalesce | bitAnd | bitOr | bitXor | equality
deriving Repr, DecidableEq

/-- How tightly a binary operator binds, from one; `none` for the other marks. -/
def Mark.precedence? : Mark → Option Nat
  | or | coalesce => some 1
  | and => some 2
  | bitOr => some 3
  | bitXor => some 4
  | bitAnd => some 5
  | equality => some 6
  | less | lessEqual | greater | greaterEqual => some 7
  | shiftLeft | shiftRight => some 8
  | plus | minus => some 9
  | star | slash | percent => some 10
  | power => some 11
  | _ => none

/-- The mark at the start of a text and its length. A greater-than sign is a mark of its own,
because it may close a list of types; `Mark.widen` takes the operator that it starts. -/
def Mark.scan : List Char → Option (Mark × Nat)
  | '{' :: _ => some (braceL, 1)
  | '}' :: _ => some (braceR, 1)
  | '(' :: _ => some (parenL, 1)
  | ')' :: _ => some (parenR, 1)
  | '[' :: _ => some (bracketL, 1)
  | ']' :: _ => some (bracketR, 1)
  | ';' :: _ => some (semicolon, 1)
  | ',' :: _ => some (comma, 1)
  | ':' :: _ => some (colon, 1)
  | '~' :: _ => some (tilde, 1)
  | '@' :: _ => some (atSign, 1)
  | '.' :: '.' :: '.' :: _ => some (spread, 3)
  | '.' :: _ => some (dot, 1)
  | '?' :: '?' :: '=' :: _ => some (compoundAssign, 3)
  | '?' :: '?' :: _ => some (coalesce, 2)
  | '?' :: '.' :: c :: _ => if c.isDigit then some (question, 1) else some (chain, 2)
  | '?' :: '.' :: _ => some (chain, 2)
  | '?' :: _ => some (question, 1)
  | '=' :: '=' :: '=' :: _ => some (equality, 3)
  | '=' :: '=' :: _ => some (equality, 2)
  | '=' :: '>' :: _ => some (arrow, 2)
  | '=' :: _ => some (assign, 1)
  | '!' :: '=' :: '=' :: _ => some (equality, 3)
  | '!' :: '=' :: _ => some (equality, 2)
  | '!' :: _ => some (bang, 1)
  | '+' :: '+' :: _ => some (increment, 2)
  | '+' :: '=' :: _ => some (compoundAssign, 2)
  | '+' :: _ => some (plus, 1)
  | '-' :: '-' :: _ => some (decrement, 2)
  | '-' :: '=' :: _ => some (compoundAssign, 2)
  | '-' :: _ => some (minus, 1)
  | '*' :: '*' :: '=' :: _ => some (compoundAssign, 3)
  | '*' :: '*' :: _ => some (power, 2)
  | '*' :: '=' :: _ => some (compoundAssign, 2)
  | '*' :: _ => some (star, 1)
  | '/' :: '=' :: _ => some (slashAssign, 2)
  | '/' :: _ => some (slash, 1)
  | '%' :: '=' :: _ => some (compoundAssign, 2)
  | '%' :: _ => some (percent, 1)
  | '<' :: '<' :: '=' :: _ => some (compoundAssign, 3)
  | '<' :: '<' :: _ => some (shiftLeft, 2)
  | '<' :: '=' :: _ => some (lessEqual, 2)
  | '<' :: _ => some (less, 1)
  | '>' :: _ => some (greater, 1)
  | '&' :: '&' :: '=' :: _ => some (compoundAssign, 3)
  | '&' :: '&' :: _ => some (and, 2)
  | '&' :: '=' :: _ => some (compoundAssign, 2)
  | '&' :: _ => some (bitAnd, 1)
  | '|' :: '|' :: '=' :: _ => some (compoundAssign, 3)
  | '|' :: '|' :: _ => some (or, 2)
  | '|' :: '=' :: _ => some (compoundAssign, 2)
  | '|' :: _ => some (bitOr, 1)
  | '^' :: '=' :: _ => some (compoundAssign, 2)
  | '^' :: _ => some (bitXor, 1)
  | _ => none

/-- The operator that starts with a greater-than sign, and its length. -/
def Mark.widen : List Char → Mark × Nat
  | '>' :: '>' :: '>' :: '=' :: _ => (compoundAssign, 4)
  | '>' :: '>' :: '>' :: _ => (shiftRight, 3)
  | '>' :: '>' :: '=' :: _ => (compoundAssign, 3)
  | '>' :: '>' :: _ => (shiftRight, 2)
  | '>' :: '=' :: _ => (greaterEqual, 2)
  | _ => (greater, 1)

/-! ## tokens -/

/-- A token of a script. -/
inductive Token
  /-- An identifier or a keyword. -/
  | word (text : String)
  /-- A name of a private member, such as `#count`. -/
  | privateName
  /-- A number, whole or not. -/
  | number
  /-- A string literal and its value, none when half of a surrogate pair stands in it. -/
  | string (value : Option String)
  /-- The quote that opens a template. -/
  | backquote
  /-- Punctuation or an operator. -/
  | mark (mark : Mark)
  /-- Text that no token starts with. -/
  | bad
  /-- The end of the text. -/
  | finish
deriving Repr, DecidableEq

/-- The words that are never identifiers. -/
def reservedWords : List String :=
  ["null", "true", "false", "break", "case", "catch", "continue", "debugger", "default", "do",
   "export", "else", "finally", "for", "function", "if", "return", "switch", "throw", "try",
   "var", "const", "while", "with", "new", "this", "super", "class", "extends", "import", "in",
   "instanceof", "typeof", "void", "delete", "enum"]

/-! ## blanks and comments -/

/-- A character that ends a line of a script. -/
def isLineEnd (c : Char) : Bool :=
  c == '\n' || c == '\r' || c.toNat == 0x2028 || c.toNat == 0x2029

/-- A blank between tokens that does not end a line. -/
def isScriptBlank (c : Char) : Bool :=
  c == ' ' || c == '\t' || c.toNat == 0xb || c.toNat == 0xc || c.toNat == 0xa0 ||
    c.toNat == 0xfeff || c.toNat == 0x1680 || (0x2000 ≤ c.toNat && c.toNat ≤ 0x200a) ||
    c.toNat == 0x202f || c.toNat == 0x205f || c.toNat == 0x3000

/-- What a gap between tokens is made of at some place. -/
inductive GapPart
  | blank | lineComment | blockComment
deriving DecidableEq

/-- The length of the blanks and comments at the start of a text, and whether a line ends in them;
`newline` says that one has ended before. The first argument counts characters that are already
known to belong to the gap. A comment in angle brackets runs to the end of its line, and so does a
closing one at the start of a line; a block comment may stay open. -/
def gapFrom : Nat → GapPart → Bool → List Char → Nat × Bool
  | _, _, newline, [] => (0, newline)
  | known + 1, part, newline, _ :: cs =>
    let r := gapFrom known part newline cs
    (r.1 + 1, r.2)
  | 0, .blockComment, newline, c :: cs =>
    let r :=
      if c == '*' && cs.head? == some '/' then gapFrom 1 .blank newline cs
      else gapFrom 0 .blockComment (newline || isLineEnd c) cs
    (r.1 + 1, r.2)
  | 0, .lineComment, newline, c :: cs =>
    let r :=
      if isLineEnd c then gapFrom 0 .blank true cs
      else gapFrom 0 .lineComment newline cs
    (r.1 + 1, r.2)
  | 0, .blank, newline, c :: cs =>
    if isScriptBlank c then
      let r := gapFrom 0 .blank newline cs
      (r.1 + 1, r.2)
    else if isLineEnd c then
      let r := gapFrom 0 .blank true cs
      (r.1 + 1, r.2)
    else match c, cs with
      | '/', '/' :: _ =>
        let r := gapFrom 0 .lineComment newline cs
        (r.1 + 1, r.2)
      | '/', '*' :: _ =>
        let r := gapFrom 1 .blockComment newline cs
        (r.1 + 1, r.2)
      | '<', '!' :: '-' :: '-' :: _ =>
        let r := gapFrom 0 .lineComment newline cs
        (r.1 + 1, r.2)
      | '-', '-' :: '>' :: _ =>
        if newline then
          let r := gapFrom 0 .lineComment newline cs
          (r.1 + 1, r.2)
        else (0, newline)
      | _, _ => (0, newline)

/-- The length of the blanks and comments at the start of a text, and whether a line ends there. -/
def gapLength (newline : Bool) (text : List Char) : Nat × Bool := gapFrom 0 .blank newline text

/-! ## escapes -/

/-- The value of a hexadecimal digit. -/
def hexValue? (c : Char) : Option Nat :=
  if c.isDigit then some (c.toNat - 48)
  else if 'a' ≤ c && c ≤ 'f' then some (c.toNat - 87)
  else if 'A' ≤ c && c ≤ 'F' then some (c.toNat - 55)
  else none

/-- The value of a sequence of hexadecimal digits. -/
def hexNumber? (cs : List Char) : Option Nat :=
  if cs.isEmpty then none
  else cs.foldl (fun n c => do return (← n) * 16 + (← hexValue? c)) (some 0)

/-- A code point in hexadecimal, after the letter that announces it: four digits, or any number of
them in braces. The second part is the length. -/
def codePointEscape : List Char → Option (Nat × Nat)
  | '{' :: cs => do
    let digits := cs.takeWhile (· != '}')
    let n ← hexNumber? digits
    if n ≤ 0x10ffff && digits.length < cs.length then some (n, digits.length + 2) else none
  | a :: b :: c :: d :: _ => do some (← hexNumber? [a, b, c, d], 4)
  | _ => none

/-- The value of up to three octal digits that do not exceed a byte, and their number. -/
def octalEscape (cs : List Char) : Nat × Nat :=
  let isOctal := fun c => '0' ≤ c && c ≤ '7'
  let value : List Char → Nat := fun ds => ds.foldl (fun n c => n * 8 + (c.toNat - 48)) 0
  let digits := (cs.take 3).takeWhile isOctal
  let digits := if value digits > 255 then digits.take 2 else digits
  (value digits, digits.length)

/-- The code units of the escape after a backslash, and its length. -/
def escape (inTemplate : Bool) : List Char → Option (List Nat × Nat)
  | [] => none
  | '\r' :: '\n' :: _ => some ([], 2)
  | 'n' :: _ => some ([10], 1)
  | 'r' :: _ => some ([13], 1)
  | 't' :: _ => some ([9], 1)
  | 'b' :: _ => some ([8], 1)
  | 'v' :: _ => some ([11], 1)
  | 'f' :: _ => some ([12], 1)
  | 'x' :: a :: b :: _ => do some ([← hexNumber? [a, b]], 3)
  | 'x' :: _ => none
  | 'u' :: cs => do
    let (n, length) ← codePointEscape cs
    some (Utf16.unitsOf n, length + 1)
  | c :: cs =>
    if isLineEnd c then some ([], 1)
    else if '0' ≤ c && c ≤ '7' then
      let followed := match cs with
        | d :: _ => '0' ≤ d && d ≤ '7'
        | [] => false
      if c == '0' && !followed then some ([0], 1)
      else if inTemplate then none
      else
        let (n, length) := octalEscape (c :: cs)
        some ([n], length)
    else some (Utf16.unitsOf c.toNat, 1)

/-! ## strings -/

/-- The code units of a string literal up to its closing quote, and the length with that quote;
`none` when the line or the text ends first or an escape is malformed. The second argument counts
characters that belong to an escape already read. -/
def stringBody (quote : Char) : Nat → List Char → Option (List Nat × Nat)
  | _, [] => none
  | known + 1, _ :: cs => do
    let (us, n) ← stringBody quote known cs
    some (us, n + 1)
  | 0, c :: cs =>
    if c == quote then some ([], 1)
    else if c == '\\' then do
      let (us, length) ← escape false cs
      let (rest, n) ← stringBody quote length cs
      some (us ++ rest, n + 1)
    else if c == '\n' || c == '\r' then none
    else do
      let (us, n) ← stringBody quote 0 cs
      some (Utf16.unitsOf c.toNat ++ us, n + 1)

/-- The text of a sequence of code units, none when half of a surrogate pair stands in it. -/
def textOfUnits (us : List Nat) : Option String := (Utf16.decode? us).map String.ofList

/-! ## templates -/

/-- A piece of text in a template. -/
structure Chunk where
  /-- The code units of the piece; `none` when an escape in it is malformed. -/
  units : Option (List Nat)
  /-- The length with the mark that ends the piece. -/
  length : Nat
  /-- The piece ends the template; else a substitution follows. -/
  closes : Bool

namespace Chunk

/-- The piece of text that starts one character earlier, with the code units of that character. -/
def cons (us : Option (List Nat)) (k : Chunk) : Chunk :=
  ⟨do return (← us) ++ (← k.units), k.length + 1, k.closes⟩

end Chunk

/-- The piece of a template at the start of a text; `none` when the template stays open. -/
def templateChunkFrom : Nat → List Char → Option Chunk
  | _, [] => none
  | known + 1, _ :: cs => (templateChunkFrom known cs).map (Chunk.cons (some []))
  | 0, c :: cs =>
    if c == '`' then some ⟨some [], 1, true⟩
    else if c == '$' && cs.head? == some '{' then some ⟨some [], 2, false⟩
    else if c == '\\' then
      match escape true cs with
      | some (us, length) => (templateChunkFrom length cs).map (Chunk.cons (some us))
      | none => (templateChunkFrom 1 cs).map (Chunk.cons none)
    else if c == '\r' then
      if cs.head? == some '\n' then (templateChunkFrom 0 cs).map (Chunk.cons (some []))
      else (templateChunkFrom 0 cs).map (Chunk.cons (some [10]))
    else (templateChunkFrom 0 cs).map (Chunk.cons (some (Utf16.unitsOf c.toNat)))

/-- The piece of a template at the start of a text; `none` when the template stays open. -/
def templateChunk (text : List Char) : Option Chunk := templateChunkFrom 0 text

/-! ## regular expressions -/

/-- The length of the body of a regular expression with the slash that closes it; `none` when the
line ends first. A slash in a class or after a backslash does not close it. -/
def regexBody : Bool → Bool → List Char → Option Nat
  | _, _, [] => none
  | escaped, inClass, c :: cs =>
    if isLineEnd c then none
    else if escaped then (regexBody false inClass cs).map (· + 1)
    else if c == '/' && !inClass then some 1
    else
      let inClass := (inClass || c == '[') && c != ']'
      (regexBody (c == '\\') inClass cs).map (· + 1)

/-- The length of the regular expression at the start of a text, flags included. -/
def regexLength : List Char → Option Nat
  | '/' :: cs => do
    let n ← regexBody false false cs
    some (1 + n + ((cs.drop n).takeWhile isIdentPart).length)
  | _ => none

/-! ## words -/

/-- The characters of the identifier at the start of a text and its length; `none` when an escape in
it is malformed or names no character of an identifier. -/
def wordBody : Nat → Bool → List Char → Option (List Char × Nat)
  | _, _, [] => some ([], 0)
  | known + 1, first, _ :: cs => do
    let (w, n) ← wordBody known first cs
    some (w, n + 1)
  | 0, first, c :: cs =>
    if c == '\\' then
      match cs with
      | 'u' :: rest => do
        let (n, length) ← codePointEscape rest
        let d := Char.ofNat n
        if if first then isIdentStart d else isIdentPart d then
          let (w, m) ← wordBody (length + 1) false cs
          some (d :: w, m + 1)
        else none
      | _ => none
    else if isIdentPart c then do
      let (w, n) ← wordBody 0 false cs
      some (c :: w, n + 1)
    else some ([], 0)

/-- The word at the start of a text. A reserved word must not be written with an escape. -/
def scanWord (text : List Char) : Token × Nat :=
  match wordBody 0 true text with
  | none => (.bad, 1)
  | some (w, n) =>
    let name := String.ofList w
    if w.length != n && reservedWords.contains name then (.bad, n) else (.word name, n)

/-! ## numbers -/

/-- A digit, or the low line that may separate digits. -/
def isDigitOrSeparator (isOne : Char → Bool) (c : Char) : Bool := isOne c || c == '_'

/-- The length of a number with a radix prefix, given what follows the prefix. -/
def radixLength (isOne : Char → Bool) (cs : List Char) : Option Nat :=
  match cs with
  | c :: _ =>
    if isOne c then
      let n := (cs.takeWhile (isDigitOrSeparator isOne)).length
      some (2 + n + (if (cs.drop n).head? == some 'n' then 1 else 0))
    else none
  | [] => none

/-- The length of the exponent at the start of a text, `none` when its digits are missing. -/
def exponentLength : List Char → Option Nat
  | c :: cs =>
    if c == 'e' || c == 'E' then
      let sign := match cs with
        | d :: _ => if d == '+' || d == '-' then 1 else 0
        | [] => 0
      let digits := (cs.drop sign).takeWhile (isDigitOrSeparator Char.isDigit)
      if digits.isEmpty then none else some (1 + sign + digits.length)
    else some 0
  | [] => some 0

/-- The length of a decimal number. -/
def decimalLength (cs : List Char) : Option Nat := do
  let whole := (cs.takeWhile (isDigitOrSeparator Char.isDigit)).length
  let rest := cs.drop whole
  if rest.head? == some 'n' then some (whole + 1)
  else
    let fraction :=
      if rest.head? == some '.' then
        1 + ((rest.drop 1).takeWhile (isDigitOrSeparator Char.isDigit)).length
      else 0
    some (whole + fraction + (← exponentLength (rest.drop fraction)))

/-- The length of the number at the start of a text. -/
def numberLength : List Char → Option Nat
  | '0' :: c :: cs =>
    if c == 'x' || c == 'X' then radixLength (hexValue? · |>.isSome) cs
    else if c == 'o' || c == 'O' then radixLength (fun d => '0' ≤ d && d ≤ '7') cs
    else if c == 'b' || c == 'B' then radixLength (fun d => d == '0' || d == '1') cs
    else decimalLength ('0' :: c :: cs)
  | cs => decimalLength cs

/-- The number at the start of a text; an identifier must not follow it directly. -/
def scanNumber (text : List Char) : Token × Nat :=
  match numberLength text with
  | none => (.bad, 1)
  | some n =>
    match text.drop n with
    | c :: _ => if isIdentStart c || c == '\\' then (.bad, n) else (.number, n)
    | [] => (.number, n)

/-! ## scanning -/

/-- The token at the start of a text, and its length. -/
def Token.scan : List Char → Token × Nat
  | [] => (.finish, 0)
  | c :: cs =>
    if c.isDigit then scanNumber (c :: cs)
    else if c == '.' && (cs.head?.map Char.isDigit).getD false then scanNumber (c :: cs)
    else if c == '"' || c == '\'' then
      match stringBody c 0 cs with
      | some (us, n) => (.string (textOfUnits us), n + 1)
      | none => (.bad, 1)
    else if c == '`' then (.backquote, 1)
    else if isIdentStart c || c == '\\' then scanWord (c :: cs)
    else if c == '#' then
      match cs with
      | d :: _ =>
        if isIdentStart d || d == '\\' then
          match scanWord cs with
          | (.word _, n) => (.privateName, n + 1)
          | (_, n) => (.privateName, n + 1)
        else (.bad, 1)
      | [] => (.bad, 1)
    else match Mark.scan (c :: cs) with
      | some (m, n) => (.mark m, n)
      | none => (.bad, 1)

/-! ## JSX -/

/-- The length of the name of an element or an attribute at the start of a text. -/
def jsxNameLength (text : List Char) : Nat :=
  (text.takeWhile fun c => isIdentPart c || c == '-').length

/-- The length of the text between elements. -/
def jsxTextLength (text : List Char) : Nat :=
  (text.takeWhile fun c => c != '<' && c != '{').length

/-- The length of the quoted value of an attribute, which has no escapes. -/
def jsxStringLength : List Char → Option Nat
  | c :: cs =>
    if c == '"' || c == '\'' then
      let n := (cs.takeWhile (· != c)).length
      if n < cs.length then some (n + 2) else none
    else none
  | [] => none

end LocaleAudit.Script
