import LocaleAudit.Text.Lines

/-!
# LocaleAudit.Proofs.Text.Position

Where a place in a text is, said by the text in front of it.  The model steps from character to
character; here a place is told by what is in front of it as a whole.

* `position_append` — the position behind a text is its place;
* `placeBehind_append` — the column counts the characters of the last line;
* `position_before` — places ascend.
-/

namespace LocaleAudit.Text

/-- The place behind a text: its line is one more than the newlines in the text, and its column is
one more than the characters behind the last of them. -/
def placeBehind (before : List Char) : Position :=
  ⟨before.count '\n' + 1, (before.reverse.takeWhile (· ≠ '\n')).length + 1⟩

/-- One more character moves the place by one step. -/
theorem step_placeBehind (before : List Char) (c : Char) :
    (placeBehind before).step c = placeBehind (before ++ [c]) := by
  by_cases hc : c = '\n'
  · simp [placeBehind, Position.step, hc]
  · simp [placeBehind, Position.step, hc]

theorem foldl_step (before cs : List Char) :
    cs.foldl Position.step (placeBehind before) = placeBehind (before ++ cs) := by
  induction cs generalizing before with
  | nil => simp
  | cons c cs ih => rw [List.foldl_cons, step_placeBehind, ih, List.append_assoc]; rfl

/-- The place so many columns farther to the right. -/
def Position.right (p : Position) (n : Nat) : Position := ⟨p.line, p.col + n⟩

theorem Position.right_right (p : Position) (m n : Nat) :
    (p.right m).right n = p.right (m + n) := by
  rw [right, right, right, Nat.add_assoc]

theorem Position.right_eq_self_iff {p : Position} {n : Nat} : p.right n = p ↔ n = 0 := by
  constructor
  · intro h
    exact Nat.add_eq_left.1 (congrArg Position.col h)
  · rintro rfl
    rfl

theorem Position.step_of_ne {c : Char} (h : c ≠ '\n') (p : Position) : p.step c = p.right 1 := by
  rw [step, if_neg h, right]

/-- Within a line every character is a column. -/
theorem Position.foldl_step_of_not_mem {cs : List Char} (h : '\n' ∉ cs) (p : Position) :
    cs.foldl step p = p.right cs.length := by
  induction cs generalizing p with
  | nil => rfl
  | cons c cs ih =>
      obtain ⟨hc, hcs⟩ := not_or.1 (mt List.mem_cons.2 h)
      rw [List.foldl_cons, step_of_ne (Ne.symm hc), ih hcs, right_right, List.length_cons,
        Nat.add_comm]

/-- An offset that reaches behind a text is counted on from there. -/
theorem positionFrom_add (p : Position) (n : Nat) (cs rest : List Char) :
    positionFrom p (byteLength cs + n) (cs ++ rest) =
      positionFrom (cs.foldl Position.step p) n rest := by
  induction cs generalizing p with
  | nil => rw [byteLength_nil, Nat.zero_add, List.nil_append, List.foldl_nil]
  | cons c cs ih =>
      have hpos := c.utf8Size_pos
      rw [List.cons_append, positionFrom, byteLength_cons, if_neg (by omega), if_neg (by omega),
        Nat.add_assoc, Nat.add_sub_cancel_left, ih, List.foldl_cons]

theorem positionFrom_zero (p : Position) (text : List Char) : positionFrom p 0 text = p := by
  cases text with
  | nil => rfl
  | cons c cs => rw [positionFrom, if_pos rfl]

/-- **The position behind a text** that is followed by anything is its place. -/
theorem position_append (before rest : List Char) :
    position (before ++ rest) (byteLength before) = placeBehind before := by
  have hstart := positionFrom_add Position.start 0 before rest
  rw [Nat.add_zero, positionFrom_zero] at hstart
  rw [position, hstart]
  exact foldl_step [] before

/-! ## the last line -/

/-- A text ends a line: it is empty or ends in a newline. -/
def EndsLine (cs : List Char) : Prop := cs = [] ∨ ∃ ds, cs = ds ++ ['\n']

theorem exists_last_line (before : List Char) :
    ∃ earlier line, before = earlier ++ line ∧ EndsLine earlier ∧ '\n' ∉ line := by
  induction before with
  | nil => exact ⟨[], [], rfl, .inl rfl, List.not_mem_nil⟩
  | cons c cs ih =>
      obtain ⟨earlier, line, rfl, rfl | ⟨ds, rfl⟩, hline⟩ := ih
      · by_cases hc : c = '\n'
        · subst hc
          exact ⟨['\n'], line, rfl, .inr ⟨[], rfl⟩, hline⟩
        · refine ⟨[], c :: line, rfl, .inl rfl, ?_⟩
          rw [List.mem_cons, not_or]
          exact ⟨Ne.symm hc, hline⟩
      · exact ⟨c :: (ds ++ ['\n']), line, rfl, .inr ⟨c :: ds, rfl⟩, hline⟩

/-- The column behind a text counts the characters of its last line. -/
theorem placeBehind_append {earlier line : List Char} (hearlier : EndsLine earlier)
    (hline : '\n' ∉ line) :
    placeBehind (earlier ++ line) = ⟨(earlier ++ line).count '\n' + 1, line.length + 1⟩ := by
  have hall : ∀ c ∈ line.reverse, (c ≠ '\n' : Bool) = true := by
    intro c hc
    rw [decide_eq_true_eq]
    rintro rfl
    exact hline (List.mem_reverse.1 hc)
  have hstop : earlier.reverse.takeWhile (· ≠ '\n') = [] := by
    rcases hearlier with rfl | ⟨ds, rfl⟩
    · rfl
    · simp
  rw [placeBehind, List.reverse_append, List.takeWhile_append_of_pos hall, hstop, List.append_nil,
    List.length_reverse]

/-! ## the order of places -/

/-- A place comes before another one in a text. -/
def Position.Before (p q : Position) : Prop := p.line < q.line ∨ p.line = q.line ∧ p.col < q.col

theorem Position.Before.trans {p q r : Position} (h₁ : p.Before q) (h₂ : q.Before r) :
    p.Before r := by
  unfold Before at *
  omega

theorem Position.Before.ne {p q : Position} (h : p.Before q) : p ≠ q := by
  rintro rfl
  unfold Before at h
  omega

/-- Every character leads to a later place. -/
theorem Position.before_step (p : Position) (c : Char) : p.Before (p.step c) := by
  rw [step]
  split
  · exact .inl (Nat.lt_succ_self _)
  · exact .inr ⟨rfl, Nat.lt_succ_self _⟩

theorem Position.before_foldl (p : Position) (c : Char) (cs : List Char) :
    p.Before ((c :: cs).foldl step p) := by
  induction cs generalizing p c with
  | nil => exact before_step p c
  | cons d cs ih => exact (before_step p c).trans (ih (p.step c) d)

/-- What reaches farther into a text goes on from what reaches less far. -/
theorem exists_cons_of_byteLength_lt {before after before' after' : List Char}
    (h : before ++ after = before' ++ after') (hlt : byteLength before < byteLength before') :
    ∃ c cs, before' = before ++ c :: cs := by
  rcases List.append_eq_append_iff.1 h with ⟨more, rfl, -⟩ | ⟨more, rfl, -⟩
  · cases more with
    | nil => simp at hlt
    | cons c cs => exact ⟨c, cs, rfl⟩
  · rw [byteLength_append] at hlt
    omega

/-- **Places ascend** with the offsets that do not lie inside a character. -/
theorem position_before {text before after before' after' : List Char}
    (h : text = before ++ after) (h' : text = before' ++ after')
    (hlt : byteLength before < byteLength before') :
    (position text (byteLength before)).Before (position text (byteLength before')) := by
  obtain ⟨c, cs, hmore⟩ := exists_cons_of_byteLength_lt (h.symm.trans h') hlt
  have hplace : position text (byteLength before') = placeBehind before' := by
    rw [h', position_append]
  rw [hplace, hmore, ← foldl_step, h, position_append]
  exact Position.before_foldl _ c cs

end LocaleAudit.Text
