/-!
# LocaleAudit.Glob.Pattern

Patterns for paths. A question mark stands for any character, a star for any text, two stars between
slashes for any number of directories, and brackets for one of the characters in them.
-/

namespace LocaleAudit.Glob

/-! ## patterns -/

/-- A part of a pattern. -/
inductive Token
  /-- A character that stands for itself. -/
  | char (c : Char)
  /-- Any character. -/
  | any
  /-- Any text. -/
  | anyText
  /-- Any number of directories, or all that is left. -/
  | anyDirectories
  /-- A character in one of the ranges, or in none of them. -/
  | oneOf (negated : Bool) (ranges : List (Char × Char))
deriving Repr, DecidableEq

/-- A pattern. -/
abbrev Pattern := List Token

/-- Why a text is not a pattern. -/
inductive Cause
  /-- Three stars or more. -/
  | stars
  /-- Two stars that are not alone between slashes. -/
  | directories
  /-- Brackets that are not closed or empty. -/
  | brackets
deriving Repr, DecidableEq

/-- A cause, and where it shows, in characters. -/
structure Fault where
  /-- The cause. -/
  cause : Cause
  /-- Where it shows. -/
  place : Nat
deriving Repr, DecidableEq

/-- What is said about a cause. -/
def Cause.message : Cause → String
  | stars => "wildcards are either regular \x60*\x60 or recursive \x60**\x60"
  | directories => "recursive wildcards must form a single path component"
  | brackets => "invalid range pattern"

/-- What is said about a fault. -/
def Fault.message (f : Fault) : String :=
  "Pattern syntax error near position " ++ toString f.place ++ ": " ++ f.cause.message

/-! ## reading -/

/-- The ranges that the text in brackets stands for. -/
def rangesOf : List Char → List (Char × Char)
  | [] => []
  | a :: '-' :: b :: cs => (a, b) :: rangesOf cs
  | a :: cs => (a, a) :: rangesOf cs

/-- Where a reader of a pattern is. -/
inductive State
  /-- Between tokens, behind a slash or at the start, or not. -/
  | between (fresh : Bool)
  /-- Behind an opening bracket at the given place. -/
  | opened (place : Nat)
  /-- In brackets, with the characters that have been read. -/
  | inside (place : Nat) (negated : Bool) (read : List Char)
deriving Repr, DecidableEq

/-- Reads what is left of a pattern from the given place on. -/
def readFrom (state : State) (place : Nat) : List Char → Except Fault Pattern
  | [] => match state with
    | .between _ => .ok []
    | .opened start | .inside start _ _ => .error ⟨.brackets, start⟩
  | c :: cs => match state with
    | .opened start =>
      readFrom (if c = '!' then .inside start true [] else .inside start false [c]) (place + 1) cs
    | .inside start negated read =>
      if c = ']' && !read.isEmpty then
        (readFrom (.between false) (place + 1) cs).map (.oneOf negated (rangesOf read) :: ·)
      else readFrom (.inside start negated (read ++ [c])) (place + 1) cs
    | .between fresh =>
      if c = '?' then (readFrom (.between false) (place + 1) cs).map (.any :: ·)
      else if c = '[' then readFrom (.opened place) (place + 1) cs
      else if c = '*' then match cs with
        | '*' :: '*' :: _ => .error ⟨.stars, place + 2⟩
        | '*' :: rest =>
          if !fresh then .error ⟨.directories, place - 1⟩
          else match rest with
            | [] => .ok [.anyDirectories]
            | '/' :: rest => (readFrom (.between true) (place + 3) rest).map (.anyDirectories :: ·)
            | _ => .error ⟨.directories, place + 2⟩
        | cs => (readFrom (.between false) (place + 1) cs).map (.anyText :: ·)
      else (readFrom (.between (c = '/')) (place + 1) cs).map (.char c :: ·)

/-- The pattern that a text stands for. -/
def Pattern.parse (text : String) : Except Fault Pattern := readFrom (.between true) 0 text.toList

/-! ## matching -/

/-- The token stands for the character. -/
def Token.accepts : Token → Char → Bool
  | char c, d => c = d
  | oneOf negated ranges, d => (ranges.any fun (a, b) => a ≤ d && d ≤ b) != negated
  | any, _ | anyText, _ | anyDirectories, _ => true

/-- A test holds of the text or of what is left behind some of its characters. -/
def someSuffix (test : List Char → Bool) : List Char → Bool
  | [] => test []
  | c :: cs => test (c :: cs) || someSuffix test cs

/-- A test holds of what is left behind some slash. -/
def behindSlash (test : List Char → Bool) : List Char → Bool
  | [] => false
  | c :: cs => (c = '/' && test cs) || behindSlash test cs

/-- The text is one of those that the pattern stands for. -/
def Pattern.accepts : Pattern → List Char → Bool
  | [], text => text.isEmpty
  | .anyText :: ts, text => someSuffix (accepts ts) text
  | .anyDirectories :: ts, text =>
    accepts ts text || behindSlash (accepts ts) text || accepts ts []
  | _ :: _, [] => false
  | t :: ts, c :: cs => t.accepts c && accepts ts cs

/-- The text that a pattern without wildcards stands for. -/
def Pattern.literal? : Pattern → Option (List Char)
  | [] => some []
  | .char c :: ts => (literal? ts).map (c :: ·)
  | _ :: _ => none

end LocaleAudit.Glob
