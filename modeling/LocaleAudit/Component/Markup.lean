import LocaleAudit.Text.Category
import LocaleAudit.Text.Slice

/-!
# LocaleAudit.Component.Markup

The markup of a template, as far as expressions stand in it: comments, interpolations in double
braces, and start tags with their attributes.

A start tag is a name, attributes with a blank before each, and a closing angle bracket with an
optional slash. What looks like a tag and is none is passed over.

* `byteLength_blankComments` — comments are blanked in place;
* `length_of_attribute?`, `length_of_startTag?` — what is read grows shorter.
-/

namespace LocaleAudit.Component

open Text

/-! ## comments -/

/-- The blanks that take the place of a character: as many spaces as it has bytes, except that a
newline stays. -/
def blanks (c : Char) : List Char := if c = '\n' then ['\n'] else List.replicate c.utf8Size ' '

/-- A text whose comments are blanked. It starts inside a comment or outside, and a comment that
does not end runs to the end of the text. -/
def blankFrom : Bool → List Char → List Char
  | _, [] => []
  | false, '<' :: '!' :: '-' :: '-' :: cs => ' ' :: ' ' :: ' ' :: ' ' :: blankFrom true cs
  | false, c :: cs => c :: blankFrom false cs
  | true, '-' :: '-' :: '>' :: cs => ' ' :: ' ' :: ' ' :: blankFrom false cs
  | true, c :: cs => blanks c ++ blankFrom true cs

/-- A text whose comments are blanked. -/
def blankComments (text : List Char) : List Char := blankFrom false text

theorem byteLength_replicate_space (n : Nat) : byteLength (List.replicate n ' ') = n := by
  induction n with
  | zero => rfl
  | succ n ih => simp [List.replicate_succ, ih, Char.utf8Size, Nat.add_comm]

theorem byteLength_blanks (c : Char) : byteLength (blanks c) = c.utf8Size := by
  unfold blanks
  split
  · rename_i h
    subst h
    rfl
  · exact byteLength_replicate_space _

theorem byteLength_blankFrom (inside : Bool) (text : List Char) :
    byteLength (blankFrom inside text) = byteLength text := by
  fun_induction blankFrom inside text with
  | case1 => rfl
  | case2 cs ih => simp [ih]; rfl
  | case3 c cs _ ih => simp [ih]
  | case4 cs ih => simp [ih]; rfl
  | case5 c cs _ ih => simp [byteLength_append, byteLength_blanks, ih]

/-- Blanking keeps the place of everything that is left. -/
theorem byteLength_blankComments (text : List Char) :
    byteLength (blankComments text) = byteLength text := byteLength_blankFrom false text

/-! ## interpolations -/

/-- An interpolation at the start of a slice: what is in its braces, and what follows it. -/
def interpolation? (s : Slice) : Option (Slice × Slice) :=
  (s.strip? ['{', '{']).bind (·.breakOn? ['}', '}'])

theorem length_of_interpolation? {s body rest : Slice} (h : interpolation? s = some (body, rest)) :
    rest.text.length < s.text.length := by
  simp only [interpolation?, Option.bind_eq_some_iff] at h
  obtain ⟨t, ht, hb⟩ := h
  have := Slice.length_of_strip? ht
  have := Slice.length_of_breakOn? hb
  simp only [List.length_cons] at *
  omega

/-- What is in the interpolations of a slice, in order. -/
def interpolations (s : Slice) : List Slice :=
  if _hs : s.text = [] then []
  else match _h : interpolation? s with
    | some (body, rest) => body :: interpolations rest
    | none => interpolations (s.drop 1)
termination_by s.text.length
decreasing_by
  · exact length_of_interpolation? _h
  · have := List.length_pos_iff.2 _hs
    simp only [Slice.drop, List.length_drop]
    omega

/-! ## attributes -/

/-- A character of the name of an attribute. -/
def isNamePart (c : Char) : Bool :=
  !(isBlank c || ['"', '\'', '<', '>', '/', '='].contains c)

/-- A character of a value without quotes. -/
def isBareValue (c : Char) : Bool :=
  !(isBlank c || ['"', '\'', '=', '<', '>', '`'].contains c)

/-- An attribute of a tag. -/
structure Attribute where
  /-- Its name. -/
  name : Slice
  /-- Its value, without quotes. -/
  value : Option Slice
deriving Repr, DecidableEq

/-- A value at the start of a slice, and what follows it. -/
def attributeValue? (s : Slice) : Option (Slice × Slice) :=
  match s.text with
  | '"' :: _ => (s.drop 1).breakOn? ['"']
  | '\'' :: _ => (s.drop 1).breakOn? ['\'']
  | _ =>
    let (value, rest) := s.span isBareValue
    if value.text.isEmpty then none else some (value, rest)

/-- An attribute with a blank before it at the start of a slice, and what follows it. An equals sign
behind the name must have a value behind it. -/
def attribute? (s : Slice) : Option (Attribute × Slice) :=
  let (gap, s) := s.span isBlank
  let (name, rest) := s.span isNamePart
  if gap.text.isEmpty || name.text.isEmpty then none
  else match (rest.skipWhile isBlank).strip? ['='] with
    | none => some (⟨name, none⟩, rest)
    | some behind =>
      (attributeValue? (behind.skipWhile isBlank)).map fun (value, rest) =>
        (⟨name, some value⟩, rest)

theorem length_span (p : Char → Bool) (s : Slice) :
    (s.span p).1.text.length + (s.span p).2.text.length = s.text.length := by
  rw [← List.length_append, Slice.text_span]

theorem length_of_attributeValue? {s value rest : Slice}
    (h : attributeValue? s = some (value, rest)) : rest.text.length ≤ s.text.length := by
  have drop_le : (s.drop 1).text.length ≤ s.text.length := by
    simp only [Slice.drop, List.length_drop]
    omega
  unfold attributeValue? at h
  split at h
  · exact Nat.le_trans (Slice.length_of_breakOn? h) drop_le
  · exact Nat.le_trans (Slice.length_of_breakOn? h) drop_le
  · have := length_span isBareValue s
    grind

theorem length_of_attribute? {s rest : Slice} {a : Attribute}
    (h : attribute? s = some (a, rest)) : rest.text.length < s.text.length := by
  simp only [attribute?] at h
  have gap := length_span isBlank s
  have name := length_span isNamePart (s.span isBlank).2
  split at h
  · simp at h
  rename_i nonempty
  simp only [Bool.or_eq_true, List.isEmpty_iff, not_or, ← List.length_pos_iff] at nonempty
  have short : ∀ t : Slice, t.text.length ≤ ((s.span isBlank).2.span isNamePart).2.text.length →
      t.text.length < s.text.length := by omega
  split at h
  · simp only [Option.some.injEq, Prod.mk.injEq] at h
    exact short _ (h.2 ▸ Nat.le_refl _)
  · rename_i behind hb
    simp only [Option.map_eq_some_iff, Prod.mk.injEq] at h
    obtain ⟨⟨v, r⟩, hv, -, rfl⟩ := h
    have := length_of_attributeValue? hv
    have := Slice.length_skipWhile_le isBlank behind
    have := Slice.length_of_strip? hb
    have := Slice.length_skipWhile_le isBlank ((s.span isBlank).2.span isNamePart).2
    exact short _ (by simp only at *; omega)

/-- The attributes at the start of a slice, and what follows them. -/
def attributes (s : Slice) : List Attribute × Slice :=
  match _h : attribute? s with
  | none => ([], s)
  | some (a, rest) =>
    let (as, rest) := attributes rest
    (a :: as, rest)
termination_by s.text.length
decreasing_by exact length_of_attribute? _h

theorem length_attributes_le (s : Slice) : (attributes s).2.text.length ≤ s.text.length := by
  fun_induction attributes s with
  | case1 => simp
  | case2 s a rest h as rest' heq ih =>
    have := length_of_attribute? h
    grind

/-! ## start tags -/

/-- A character of the name of a tag, behind the first letter. -/
def isTagPart (c : Char) : Bool := isWordChar c || c == '-' || c == '.' || c == ':'

/-- A start tag. -/
structure Tag where
  /-- Its name. -/
  name : List Char
  /-- Its attributes, in order. -/
  attributes : List Attribute
deriving Repr, DecidableEq

/-- What follows the end of a start tag at the start of a slice. -/
def tagEnd? (s : Slice) : Option Slice :=
  let s := s.skipWhile isBlank
  ((s.strip? ['/']).getD s).strip? ['>']

/-- A start tag at the start of a slice, and what follows it. -/
def startTag? (s : Slice) : Option (Tag × Slice) :=
  match s.text with
  | '<' :: c :: _ =>
    if c.isAlpha then
      let (name, rest) := (s.drop 1).span isTagPart
      let (found, rest) := attributes rest
      (tagEnd? rest).map (⟨name.text, found⟩, ·)
    else none
  | _ => none

theorem length_of_tagEnd? {s rest : Slice} (h : tagEnd? s = some rest) :
    rest.text.length ≤ s.text.length := by
  simp only [tagEnd?] at h
  have skip := Slice.length_skipWhile_le isBlank s
  have close := Slice.length_of_strip? h
  cases hs : (s.skipWhile isBlank).strip? ['/'] with
  | none =>
    simp only [hs, Option.getD_none, List.length_cons, List.length_nil] at close
    omega
  | some t =>
    have := Slice.length_of_strip? hs
    simp only [hs, Option.getD_some, List.length_cons, List.length_nil] at close this
    omega

theorem length_of_startTag? {s rest : Slice} {t : Tag} (h : startTag? s = some (t, rest)) :
    rest.text.length < s.text.length := by
  unfold startTag? at h
  split at h
  · rename_i c tail htext
    split at h
    · simp only [Option.map_eq_some_iff, Prod.mk.injEq] at h
      obtain ⟨r, hr, -, rfl⟩ := h
      have close := length_of_tagEnd? hr
      have inner := length_attributes_le ((s.drop 1).span isTagPart).2
      have name := length_span isTagPart (s.drop 1)
      have first : (s.drop 1).text.length < s.text.length := by simp [Slice.drop, htext]
      omega
    · simp at h
  · simp at h

/-- The start tags of a slice, in order. -/
def startTags (s : Slice) : List Tag :=
  if _hs : s.text = [] then []
  else match _h : startTag? s with
    | some (tag, rest) => tag :: startTags rest
    | none => startTags (s.drop 1)
termination_by s.text.length
decreasing_by
  · exact length_of_startTag? _h
  · have := List.length_pos_iff.2 _hs
    simp only [Slice.drop, List.length_drop]
    omega

end LocaleAudit.Component
