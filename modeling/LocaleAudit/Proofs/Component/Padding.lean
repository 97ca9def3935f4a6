import LocaleAudit.Component.Keys
import LocaleAudit.Proofs.Text.LineIndex

/-!
# LocaleAudit.Proofs.Component.Padding

Code behind padding.  The padding has other characters than what it stands for, but it leads to the
same place.  On the first line of the code the columns of the padding count; behind the first newline
in it only the lines do.

* `placeBehind_padding` — padding leads to its place;
* `position_padding` — behind it a text goes on from there;
* `position?_padded` — padding preserves places.
-/

namespace LocaleAudit.Component

open Text Slice

/-! ## padding -/

theorem mem_padding {p : Position} {c : Char} (h : c ∈ padding p) : c = '\n' ∨ c = ' ' :=
  (List.mem_append.1 h).imp List.eq_of_mem_replicate List.eq_of_mem_replicate

/-- Padding leads to its place. -/
theorem placeBehind_padding {p : Position} (hline : 0 < p.line) (hcol : 0 < p.col) :
    placeBehind (padding p) = p := by
  have hearlier : EndsLine (List.replicate (p.line - 1) '\n') := by
    cases p.line - 1 with
    | zero => exact .inl rfl
    | succ n => exact .inr ⟨List.replicate n '\n', List.replicate_succ'⟩
  have hspaces : '\n' ∉ List.replicate (p.col - 1) ' ' := fun h =>
    absurd (List.eq_of_mem_replicate h) (by decide)
  rw [padding, placeBehind_append hearlier hspaces, List.count_append, List.count_replicate_self,
    List.count_eq_zero.2 hspaces, List.length_replicate]
  obtain ⟨line, col⟩ := p
  dsimp only at *
  congr 1 <;> omega

/-- **Behind padding**, a text goes on from the place that the padding leads to. -/
theorem position_padding (before cs rest : List Char) :
    position (padding (placeBehind before) ++ (cs ++ rest))
        (byteLength (padding (placeBehind before)) + byteLength cs) =
      cs.foldl Position.step (placeBehind before) := by
  rw [← List.append_assoc, ← byteLength_append, position_append, ← foldl_step,
    placeBehind_padding (Nat.succ_pos _) (Nat.succ_pos _)]

/-- What is not at the start of a text is padded with something that no mark is taken for. -/
theorem withoutMark_padding {before : List Char} (hne : before ≠ []) (cs : List Char) :
    Script.withoutMark (padding (placeBehind before) ++ cs) =
      padding (placeBehind before) ++ cs := by
  obtain ⟨c, before, rfl⟩ := List.exists_cons_of_ne_nil hne
  have hstart : Position.start ≠ placeBehind (c :: before) := by
    have hlater := (Position.before_foldl Position.start c before).ne
    rwa [show Position.start = placeBehind [] from rfl, foldl_step] at hlater
  cases hpadding : padding (placeBehind (c :: before)) with
  | nil =>
      have hplace := placeBehind_padding (p := placeBehind (c :: before)) (Nat.succ_pos _)
        (Nat.succ_pos _)
      rw [hpadding] at hplace
      exact absurd hplace hstart
  | cons d ds =>
      have hmem : d ∈ padding (placeBehind (c :: before)) := hpadding ▸ List.mem_cons_self
      rcases mem_padding hmem with rfl | rfl
      · rfl
      · rfl

/-! ## code that is cut out of a text -/

/-- **Padding preserves places.**  What is in front of code that is cut out of a text gives way to
newlines and spaces, and then every place in the code, up to its end, is the one in the text. -/
theorem position?_padded {text code : List Char} {o n : Nat}
    (h : part? o (o + n) text = some code) :
    ∃ pad, padded text ⟨o, code⟩ = pad ++ code ∧ (∀ c ∈ pad, c = '\n' ∨ c = ' ') ∧
      ∀ i seen rest, split? i code = some (seen, rest) →
        ∃ p, (LineIndex.ofText (padded text ⟨o, code⟩)).position? (byteLength pad + i) = some p ∧
          (LineIndex.ofText text).position? (o + i) = some p := by
  obtain ⟨before, after, rfl, rfl, -⟩ := part?_eq_some_iff.1 h
  have hstart : position (before ++ code ++ after) (byteLength before) = placeBehind before := by
    rw [List.append_assoc, position_append]
  refine ⟨padding (placeBehind before), by rw [padded, hstart], fun _ => mem_padding, ?_⟩
  intro i seen rest hsplit
  obtain ⟨rfl, rfl⟩ := split?_eq_some_iff.1 hsplit
  refine ⟨placeBehind (before ++ seen), ?_, ?_⟩
  · rw [LineIndex.position?_eq, padded, hstart, position_padding, foldl_step]
  · have htext : before ++ (seen ++ rest) ++ after = before ++ seen ++ (rest ++ after) := by simp
    rw [LineIndex.position?_eq, htext, ← byteLength_append, position_append]

/-- A text with a wide character in front of two calls, the second of which is on the next line. -/
def twoCalls : List Char := "日 t('j') +\n  t('k')".toList

theorem position?_padded_twoCalls :
    part? 4 (4 + 17) twoCalls = some "t('j') +\n  t('k')".toList ∧
      ∃ pad, padded twoCalls ⟨4, "t('j') +\n  t('k')".toList⟩ =
          pad ++ "t('j') +\n  t('k')".toList ∧
        let index := LineIndex.ofText (pad ++ "t('j') +\n  t('k')".toList)
        index.position? (byteLength pad) = some ⟨1, 3⟩ ∧
          index.position? (byteLength pad + 11) = some ⟨2, 3⟩ := by
  have hcode : part? 4 (4 + 17) twoCalls = some "t('j') +\n  t('k')".toList := by decide
  obtain ⟨pad, hpad, -, hplaces⟩ := position?_padded hcode
  obtain ⟨p, hp, htext⟩ := hplaces 0 _ _ rfl
  obtain ⟨q, hq, htext'⟩ := hplaces 11 _ _ rfl
  rw [LineIndex.position?_eq] at htext htext'
  rw [hpad] at hp hq
  have hp' : some p = some ⟨1, 3⟩ := htext.symm.trans (by decide)
  have hq' : some q = some ⟨2, 3⟩ := htext'.symm.trans (by decide)
  exact ⟨hcode, pad, hpad, hp.trans hp', hq.trans hq'⟩

end LocaleAudit.Component
