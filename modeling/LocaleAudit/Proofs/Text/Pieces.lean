import LocaleAudit.Text.Lines

/-!
# LocaleAudit.Proofs.Text.Pieces

The pieces of a text between the occurrences of a character.

* `pieces_append`, `pieces_intercalate` — the pieces of texts with a mark between them;
* `pieces_eq_splitOn` — they are the parts that the text is split into.
-/

namespace LocaleAudit.Text

variable {mark : Char}

/-- The pieces of a text on both sides of a mark. -/
theorem pieces_append (as bs : List Char) :
    pieces mark (as ++ mark :: bs) = pieces mark as ++ pieces mark bs := by
  induction as with
  | nil => simp [pieces]
  | cons c as ih =>
      rw [List.cons_append, pieces, pieces, ih]
      split
      · rw [List.cons_append]
      · cases h : pieces mark as with
        | nil => exact absurd h (pieces_ne_nil mark as)
        | cons piece pieces => rfl

theorem pieces_of_not_mem {piece : List Char} (h : mark ∉ piece) : pieces mark piece = [piece] := by
  induction piece with
  | nil => rfl
  | cons c piece ih =>
      obtain ⟨hc, hpiece⟩ := not_or.1 (mt List.mem_cons.2 h)
      rw [pieces, if_neg (Ne.symm hc), ih hpiece]

/-- The first piece holds the first character of a text that is not the mark. -/
theorem pieces_eq_cons_cons {mark c : Char} (h : c ≠ mark) (cs : List Char) :
    ∃ piece rest, pieces mark (c :: cs) = (c :: piece) :: rest := by
  rw [pieces, if_neg h]
  cases hpieces : pieces mark cs with
  | nil => exact ⟨[], [], rfl⟩
  | cons piece rest => exact ⟨piece, rest, rfl⟩

theorem eq_nil_of_pieces {mark : Char} {text : List Char} (h : pieces mark text = [[]]) :
    text = [] := by
  cases text with
  | nil => rfl
  | cons c cs =>
      by_cases hc : c = mark
      · rw [pieces, if_pos hc] at h
        exact absurd (List.cons.inj h).2 (pieces_ne_nil mark cs)
      · obtain ⟨piece, rest, hpieces⟩ := pieces_eq_cons_cons hc cs
        rw [hpieces] at h
        exact absurd (List.cons.inj h).1 (List.cons_ne_nil c piece)

/-- What is in a piece is in the text, and is not the mark. -/
theorem mem_of_mem_pieces {text piece : List Char} (h : piece ∈ pieces mark text) {d : Char}
    (hd : d ∈ piece) : d ∈ text ∧ d ≠ mark := by
  induction text generalizing piece with
  | nil =>
      obtain rfl : piece = [] := by simpa [pieces] using h
      contradiction
  | cons c text ih =>
      have ih {piece : List Char} (h : piece ∈ pieces mark text) (hd : d ∈ piece) :
          d ∈ c :: text ∧ d ≠ mark := (ih h hd).imp_left (List.mem_cons_of_mem _)
      rw [pieces] at h
      split at h
      · rcases List.mem_cons.1 h with rfl | h
        · contradiction
        · exact ih h hd
      · rename_i hc
        cases hpieces : pieces mark text with
        | nil => exact absurd hpieces (pieces_ne_nil mark text)
        | cons first rest =>
            rw [hpieces] at h ih
            rcases List.mem_cons.1 h with rfl | h
            · rcases List.mem_cons.1 hd with rfl | hd
              · exact ⟨List.mem_cons_self, hc⟩
              · exact ih List.mem_cons_self hd
            · exact ih (List.mem_cons_of_mem _ h) hd

/-- **The pieces of texts with a mark between them** are these texts. -/
theorem pieces_intercalate {texts : List (List Char)} (hne : texts ≠ [])
    (h : ∀ text ∈ texts, mark ∉ text) : pieces mark (List.intercalate [mark] texts) = texts := by
  induction texts with
  | nil => contradiction
  | cons text texts ih =>
      obtain ⟨htext, htexts⟩ := List.forall_mem_cons.1 h
      cases texts with
      | nil => simpa using pieces_of_not_mem htext
      | cons next texts =>
          rw [List.intercalate_cons_cons, List.append_assoc, List.singleton_append,
            pieces_append, pieces_of_not_mem htext, ih (List.cons_ne_nil _ _) htexts]
          rfl

theorem pieces_eq_splitOn (mark : Char) (text : List Char) :
    pieces mark text = text.splitOn mark := by
  induction text with
  | nil => rw [pieces, List.splitOn_nil]
  | cons c text ih =>
      rw [pieces, ih, List.splitOn_cons_eq_if_modifyHead]
      by_cases hc : c = mark
      · simp [hc]
      · cases hpieces : text.splitOn mark with
        | nil => exact absurd hpieces (List.splitOn_ne_nil mark text)
        | cons piece rest => simp [hc]

end LocaleAudit.Text
