import LocaleAudit.Text.Lines

/-!
# LocaleAudit.Text.Slice

Parts of a text that know where they start. A slice is cut by `span` and `breakOn?` into slices of
the same text, so that the place of whatever is found in it is a place in the whole text.

* `text_span` and `text_of_breakOn?` — cutting loses nothing;
* `length_of_breakOn?` and its like — what is left to read is never longer.
-/

namespace LocaleAudit.Text

/-- A part of a text and where it starts, in bytes. -/
structure Slice where
  /-- Where the part starts. -/
  offset : Nat
  /-- Its characters. -/
  text : List Char
deriving Repr, DecidableEq, Inhabited

namespace Slice

/-! ## cutting -/

/-- The slice without its first `n` characters. -/
def drop (n : Nat) (s : Slice) : Slice := ⟨s.offset + byteLength (s.text.take n), s.text.drop n⟩

/-- The longest beginning that holds only the given characters, and the rest. -/
def span (p : Char → Bool) (s : Slice) : Slice × Slice :=
  let taken := s.text.takeWhile p
  (⟨s.offset, taken⟩, ⟨s.offset + byteLength taken, s.text.dropWhile p⟩)

/-- The slice behind the given characters at its start. -/
def skipWhile (p : Char → Bool) (s : Slice) : Slice := (s.span p).2

/-- The slice behind a text that stands at its start. -/
def strip? (mark : List Char) (s : Slice) : Option Slice :=
  (behind? mark s.text).map (⟨s.offset + byteLength mark, ·⟩)

theorem text_span (p : Char → Bool) (s : Slice) :
    (s.span p).1.text ++ (s.span p).2.text = s.text := by
  simp [span, List.takeWhile_append_dropWhile]

theorem length_skipWhile_le (p : Char → Bool) (s : Slice) :
    (s.skipWhile p).text.length ≤ s.text.length := by
  simpa [skipWhile, span] using (List.dropWhile_sublist p (l := s.text)).length_le

theorem text_of_strip? {mark : List Char} {s rest : Slice} (h : s.strip? mark = some rest) :
    mark ++ rest.text = s.text := by
  simp only [strip?, Option.map_eq_some_iff] at h
  obtain ⟨t, ht, rfl⟩ := h
  exact behind?_eq_some_iff.1 ht

/-! ## searching -/

/-- The text in front of the first place where `ending?` finds an ending, and the text behind that
ending. -/
def breakBefore? (ending? : List Char → Option (List Char)) :
    List Char → Option (List Char × List Char)
  | [] => (ending? []).map ([], ·)
  | c :: cs =>
    match ending? (c :: cs) with
    | some rest => some ([], rest)
    | none => (breakBefore? ending? cs).map fun (before, rest) => (c :: before, rest)

/-- The texts in front of and behind the first occurrence of a mark. -/
def breakText? (mark text : List Char) : Option (List Char × List Char) :=
  breakBefore? (behind? mark) text

/-- The slices in front of and behind the first ending. -/
def breakAt? (ending? : List Char → Option (List Char)) (s : Slice) : Option (Slice × Slice) :=
  (breakBefore? ending? s.text).map fun (before, rest) =>
    (⟨s.offset, before⟩, ⟨s.offset + (byteLength s.text - byteLength rest), rest⟩)

/-- The slices in front of and behind the first occurrence of a mark. -/
def breakOn? (mark : List Char) (s : Slice) : Option (Slice × Slice) :=
  breakAt? (behind? mark) s

/-- The text in front of the last occurrence of a mark. -/
def beforeLast? (mark : List Char) : List Char → Option (List Char)
  | [] => if mark.isEmpty then some [] else none
  | c :: cs =>
    match beforeLast? mark cs with
    | some before => some (c :: before)
    | none => if mark.isPrefixOf (c :: cs) then some [] else none

theorem length_of_breakBefore? {ending? : List Char → Option (List Char)}
    (shorter : ∀ {t r}, ending? t = some r → r.length ≤ t.length) {text before rest : List Char}
    (h : breakBefore? ending? text = some (before, rest)) :
    rest.length ≤ text.length := by
  induction text generalizing before with
  | nil =>
    simp only [breakBefore?, Option.map_eq_some_iff, Prod.mk.injEq] at h
    obtain ⟨r, hr, -, rfl⟩ := h
    exact shorter hr
  | cons c cs ih =>
    unfold breakBefore? at h
    split at h
    · rename_i hr
      simp only [Option.some.injEq, Prod.mk.injEq] at h
      exact h.2 ▸ shorter hr
    · simp only [Option.map_eq_some_iff, Prod.mk.injEq] at h
      obtain ⟨⟨b, r⟩, hb, -, rfl⟩ := h
      exact Nat.le_succ_of_le (ih hb)

theorem length_of_breakAt? {ending? : List Char → Option (List Char)}
    (shorter : ∀ {t r}, ending? t = some r → r.length ≤ t.length) {s before rest : Slice}
    (h : s.breakAt? ending? = some (before, rest)) : rest.text.length ≤ s.text.length := by
  simp only [breakAt?, Option.map_eq_some_iff, Prod.mk.injEq] at h
  obtain ⟨⟨b, r⟩, hb, -, rfl⟩ := h
  exact length_of_breakBefore? shorter hb

theorem length_of_breakOn? {mark : List Char} {s before rest : Slice}
    (h : s.breakOn? mark = some (before, rest)) : rest.text.length ≤ s.text.length :=
  length_of_breakAt? (fun h => by have := length_of_behind? h; omega) h

theorem length_of_strip? {mark : List Char} {s rest : Slice} (h : s.strip? mark = some rest) :
    rest.text.length + mark.length = s.text.length := by
  rw [← text_of_strip? h]
  simp [Nat.add_comm]

/-- Nothing is lost when a text is cut at a mark. -/
theorem text_of_breakText? {mark text before rest : List Char}
    (h : breakText? mark text = some (before, rest)) : before ++ mark ++ rest = text := by
  unfold breakText? at h
  induction text generalizing before with
  | nil =>
    simp only [breakBefore?, Option.map_eq_some_iff, Prod.mk.injEq] at h
    obtain ⟨r, hr, rfl, rfl⟩ := h
    simpa using behind?_eq_some_iff.1 hr
  | cons c cs ih =>
    unfold breakBefore? at h
    split at h
    · rename_i hr
      simp only [Option.some.injEq, Prod.mk.injEq] at h
      obtain ⟨rfl, rfl⟩ := h
      simpa using behind?_eq_some_iff.1 hr
    · simp only [Option.map_eq_some_iff, Prod.mk.injEq] at h
      obtain ⟨⟨b, r⟩, hb, rfl, rfl⟩ := h
      simpa using ih hb

end Slice

end LocaleAudit.Text
