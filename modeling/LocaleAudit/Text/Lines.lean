/-!
# LocaleAudit.Text.Lines

Lines and columns of a text. A text is a list of characters, offsets into it count UTF-8 bytes,
lines end at a newline, and columns count characters. Lines and columns are numbered from one.

* `behind?_eq_some_iff` — what is behind a beginning, put behind it again, is the whole.
-/

namespace LocaleAudit.Text

/-! ## bytes -/

/-- The number of UTF-8 bytes of a text. -/
def byteLength : List Char → Nat
  | [] => 0
  | c :: cs => c.utf8Size + byteLength cs

@[simp] theorem byteLength_nil : byteLength [] = 0 := rfl

@[simp] theorem byteLength_cons (c : Char) (cs : List Char) :
    byteLength (c :: cs) = c.utf8Size + byteLength cs := rfl

theorem byteLength_append (xs ys : List Char) :
    byteLength (xs ++ ys) = byteLength xs + byteLength ys := by
  induction xs with
  | nil => simp
  | cons c cs ih => simp [ih, Nat.add_assoc]

/-! ## beginnings -/

/-- What is behind a beginning, if a list has that beginning. -/
def behind? {α : Type} [DecidableEq α] : List α → List α → Option (List α)
  | [], whole => some whole
  | _ :: _, [] => none
  | a :: mark, b :: whole => if a = b then behind? mark whole else none

theorem behind?_eq_some_iff {α : Type} [DecidableEq α] {mark whole rest : List α} :
    behind? mark whole = some rest ↔ mark ++ rest = whole := by
  induction mark generalizing whole with
  | nil => simp [behind?, eq_comm]
  | cons a mark ih =>
    cases whole with
    | nil => simp [behind?]
    | cons b whole =>
      simp only [behind?, List.cons_append, List.cons.injEq]
      split
      · rename_i h
        simp [h, ih]
      · rename_i h
        simp [h]

theorem length_of_behind? {α : Type} [DecidableEq α] {mark whole rest : List α}
    (h : behind? mark whole = some rest) : rest.length + mark.length = whole.length := by
  rw [← behind?_eq_some_iff.1 h, List.length_append, Nat.add_comm]

/-! ## positions -/

/-- A place in a text. -/
structure Position where
  /-- The line, from one. -/
  line : Nat
  /-- The column, from one. -/
  col : Nat
deriving Repr, DecidableEq, Inhabited

namespace Position

/-- The place where a diagnostic about a whole file is shown. -/
def start : Position := ⟨1, 1⟩

/-- The place after one more character: a newline starts the next line. -/
def step (p : Position) (c : Char) : Position :=
  if c = '\n' then ⟨p.line + 1, 1⟩ else ⟨p.line, p.col + 1⟩

end Position

/-- The place `offset` bytes into a text that itself starts at `p`. An offset inside a character
has the first column of its line, and one beyond the end has the place of the end. -/
def positionFrom (p : Position) (offset : Nat) : List Char → Position
  | [] => p
  | c :: cs =>
    if offset = 0 then p
    else if offset < c.utf8Size then ⟨p.line, 1⟩
    else positionFrom (p.step c) (offset - c.utf8Size) cs

/-- The place `offset` bytes into a text. -/
def position (text : List Char) (offset : Nat) : Position :=
  positionFrom Position.start offset text

/-- The line that an offset lies on. -/
def lineOf (text : List Char) (offset : Nat) : Nat := (position text offset).line

@[simp] theorem position_zero (text : List Char) : position text 0 = Position.start := by
  cases text <;> simp [position, positionFrom]

/-! ## lines -/

/-- The pieces of a text between the occurrences of a character, in order. -/
def pieces (mark : Char) : List Char → List (List Char)
  | [] => [[]]
  | c :: cs =>
    if c = mark then [] :: pieces mark cs
    else match pieces mark cs with
      | [] => [[c]]
      | l :: ls => (c :: l) :: ls

theorem pieces_ne_nil (mark : Char) (text : List Char) : pieces mark text ≠ [] := by
  cases text with
  | nil => simp [pieces]
  | cons c cs =>
    unfold pieces
    split
    · simp
    · split <;> simp

/-- A text without the given characters at its end. -/
def trimEnd (drop : Char → Bool) (text : List Char) : List Char :=
  (text.reverse.dropWhile drop).reverse

/-- A line of a text without the carriage returns at its end; no line has number zero, and the
lines after the last are empty. -/
def lineText (text : List Char) : Nat → List Char
  | 0 => []
  | n + 1 => trimEnd (· == '\r') ((pieces '\n' text)[n]?.getD [])

end LocaleAudit.Text
