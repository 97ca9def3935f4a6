import LocaleAudit.Text.Lines

/-!
# LocaleAudit.Proofs.Text.Part

Parts of a text between two offsets.  Offsets count bytes, so that one may lie inside a character or
behind the end of the text, and then there is no such part.

* `split?_eq_some_iff` — a text is split at the offsets that are lengths of its beginnings;
* `part?_eq_some_iff` — the part between two offsets.
-/

namespace LocaleAudit.Text

/-- The texts in front of an offset and behind it, if it does not lie inside a character. -/
def split? (offset : Nat) : List Char → Option (List Char × List Char)
  | [] => if offset = 0 then some ([], []) else none
  | c :: cs =>
    if offset = 0 then some ([], c :: cs)
    else if offset < c.utf8Size then none
    else (split? (offset - c.utf8Size) cs).map fun (before, after) => (c :: before, after)

/-- The part of a text from one offset to another, if neither lies inside a character. -/
def part? (lo hi : Nat) (text : List Char) : Option (List Char) :=
  if lo ≤ hi then
    (split? lo text).bind fun s => (split? (hi - lo) s.2).map (·.1)
  else none

theorem byteLength_pos {cs : List Char} (h : cs ≠ []) : 0 < byteLength cs := by
  obtain ⟨c, cs, rfl⟩ := List.exists_cons_of_ne_nil h
  exact Nat.add_pos_left c.utf8Size_pos _

theorem split?_append (before after : List Char) :
    split? (byteLength before) (before ++ after) = some (before, after) := by
  induction before with
  | nil => cases after <;> simp [split?]
  | cons c cs ih =>
      have hpos := c.utf8Size_pos
      rw [List.cons_append, split?, byteLength_cons, if_neg (by omega), if_neg (by omega),
        Nat.add_sub_cancel_left, ih, Option.map_some]

/-- **A text is split** at the offsets that are lengths of its beginnings. -/
theorem split?_eq_some_iff {offset : Nat} {text before after : List Char} :
    split? offset text = some (before, after) ↔
      text = before ++ after ∧ offset = byteLength before := by
  constructor
  · intro h
    induction text generalizing offset before with
    | nil =>
        rw [split?, Option.ite_none_right_eq_some, Option.some.injEq] at h
        obtain ⟨rfl, heq⟩ := h
        obtain ⟨rfl, rfl⟩ := Prod.mk.inj heq
        exact ⟨rfl, rfl⟩
    | cons c cs ih =>
        rw [split?] at h
        split at h
        · rename_i hzero
          obtain ⟨rfl, rfl⟩ := Prod.mk.inj (Option.some.inj h)
          exact ⟨rfl, hzero⟩
        · rw [Option.ite_none_left_eq_some, Option.map_eq_some_iff] at h
          obtain ⟨hle, ⟨before', after'⟩, hsplit, heq⟩ := h
          obtain ⟨rfl, rfl⟩ := Prod.mk.inj heq
          obtain ⟨rfl, hoffset⟩ := ih hsplit
          refine ⟨rfl, ?_⟩
          rw [byteLength_cons, ← hoffset]
          omega
  · rintro ⟨rfl, rfl⟩
    exact split?_append before after

/-- **The part between two offsets** is what stands between the text in front of the first one and
the text behind the second one. -/
theorem part?_eq_some_iff {lo hi : Nat} {text cs : List Char} :
    part? lo hi text = some cs ↔
      ∃ before after, text = before ++ cs ++ after ∧ lo = byteLength before ∧
        hi = byteLength before + byteLength cs := by
  rw [part?, Option.ite_none_right_eq_some]
  constructor
  · rintro ⟨hle, h⟩
    obtain ⟨⟨before, rest⟩, hbefore, h⟩ := Option.bind_eq_some_iff.1 h
    obtain ⟨⟨part, after⟩, hpart, rfl⟩ := Option.map_eq_some_iff.1 h
    obtain ⟨rfl, rfl⟩ := split?_eq_some_iff.1 hbefore
    obtain ⟨hrest, hhi⟩ := split?_eq_some_iff.1 hpart
    dsimp only at hrest
    subst hrest
    exact ⟨before, after, by rw [List.append_assoc], rfl, (Nat.sub_eq_iff_eq_add' hle).1 hhi⟩
  · rintro ⟨before, after, rfl, rfl, rfl⟩
    refine ⟨Nat.le_add_right _ _, ?_⟩
    rw [List.append_assoc, split?_append, Option.bind_some, Nat.add_sub_cancel_left, split?_append,
      Option.map_some]

end LocaleAudit.Text
