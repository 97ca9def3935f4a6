import LocaleAudit.Proofs.Component.Block
import LocaleAudit.Proofs.Component.Padding
import LocaleAudit.Proofs.Component.Snippet

/-!
# LocaleAudit.Proofs.Component.Place

The places of snippets.  A snippet is parsed behind padding that leads to its place, and so a
character in it is found where it stands in the component.  But a comment in a snippet is blanked
byte by byte, while columns count characters: what stands behind a comment, on its line, is found as
many columns too far to the right as the characters of the comment have bytes beyond their first.

* `foldl_step_shown` — how far a stretch with comments leads;
* `padded_place` — where the characters of a snippet are found.
-/

namespace LocaleAudit.Component

open Text Slice

/-! ## comments -/

/-- The columns that what a character leaves takes beyond the one of the character. -/
def Marked.extra (m : Marked) : Nat := if m.commented then m.char.utf8Size - 1 else 0

/-- The columns that what a stretch leaves takes beyond those of its characters. -/
def extraColumns : List Marked → Nat
  | [] => 0
  | m :: ms => m.extra + extraColumns ms

/-- A stretch behind its last newline. -/
def lastLine : List Marked → List Marked
  | [] => []
  | m :: ms => if '\n' ∈ chars (m :: ms) then lastLine ms else m :: ms

theorem lastLine_of_not_mem {ms : List Marked} (h : '\n' ∉ chars ms) : lastLine ms = ms := by
  cases ms with
  | nil => rfl
  | cons m ms => rw [lastLine, if_neg h]

/-- No columns are added if and only if every character of a comment has one byte. -/
theorem extraColumns_eq_zero_iff {ms : List Marked} :
    extraColumns ms = 0 ↔ ∀ m ∈ ms, m.commented = true → m.char.utf8Size = 1 := by
  have hextra (m : Marked) : m.extra = 0 ↔ (m.commented = true → m.char.utf8Size = 1) := by
    have hpos := m.char.utf8Size_pos
    rw [Marked.extra]
    split
    · rename_i hm
      rw [imp_iff_right hm]
      omega
    · rename_i hm
      exact iff_of_true rfl fun h => absurd h hm
  induction ms with
  | nil => simp [extraColumns]
  | cons m ms ih =>
      rw [extraColumns, Nat.add_eq_zero_iff, List.forall_mem_cons]
      exact and_congr (hextra m) ih

theorem Marked.shown_newline {m : Marked} (h : m.char = '\n') : m.shown = ['\n'] := by
  rw [shown, blanks, if_pos h, h, ite_self]

/-- What a character other than a newline leaves takes its column and the extra ones. -/
theorem Marked.foldl_step_shown {m : Marked} (h : m.char ≠ '\n') (p : Position) :
    m.shown.foldl Position.step p = (p.step m.char).right m.extra := by
  have hpos := m.char.utf8Size_pos
  rw [Position.step_of_ne h, Position.right_right, shown, extra]
  split
  · have hspaces : '\n' ∉ List.replicate m.char.utf8Size ' ' := fun hmem =>
      absurd (List.eq_of_mem_replicate hmem) (by decide)
    rw [blanks, if_neg h, Position.foldl_step_of_not_mem hspaces, List.length_replicate]
    congr 1
    omega
  · exact Position.foldl_step_of_not_mem (by rwa [List.mem_singleton, eq_comm]) p

/-- **What a stretch leaves** leads to the place that its characters lead to, and as many columns
farther as its last line has extra ones. -/
theorem foldl_step_shown (ms : List Marked) (p : Position) (n : Nat) :
    (shown ms).foldl Position.step (p.right n) =
      ((chars ms).foldl Position.step p).right
        ((if '\n' ∈ chars ms then 0 else n) + extraColumns (lastLine ms)) := by
  induction ms generalizing p n with
  | nil => rfl
  | cons m ms ih =>
      rw [shown_cons, List.foldl_append, lastLine, chars_cons, List.foldl_cons]
      by_cases hm : m.char = '\n'
      · have hmem : '\n' ∈ m.char :: chars ms := hm ▸ List.mem_cons_self
        have hstep : m.shown.foldl Position.step (p.right n) = (p.step m.char).right 0 := by
          rw [m.shown_newline hm, hm]
          rfl
        rw [hstep, ih, ite_self, if_pos hmem, if_pos hmem]
      · have hmem : '\n' ∈ m.char :: chars ms ↔ '\n' ∈ chars ms :=
          List.mem_cons.trans (or_iff_right (Ne.symm hm))
        have hstep : m.shown.foldl Position.step (p.right n) =
            (p.step m.char).right (n + m.extra) := by
          rw [m.foldl_step_shown hm, Position.step_of_ne hm, Position.step_of_ne hm,
            Position.right_right, Position.right_right, Position.right_right]
          congr 1
          omega
        rw [hstep, ih]
        by_cases hms : '\n' ∈ chars ms
        · rw [if_pos hms, if_pos (hmem.2 hms), if_pos (hmem.2 hms)]
        · rw [if_neg hms, if_neg (mt hmem.1 hms), if_neg (mt hmem.1 hms), lastLine_of_not_mem hms,
            extraColumns, Nat.add_assoc]

/-! ## snippets -/

/-- A snippet is what a stretch of a content leaves when its comments are blanked. -/
structure CutFrom (content code : Slice) (inside : List Marked) : Prop where
  /-- The stretch lies in the content, and the snippet starts where it does. -/
  stretch : ∃ before after, marks content.text = before ++ inside ++ after ∧
    code.offset = content.offset + byteLength (chars before)
  /-- The snippet is what the stretch leaves. -/
  text : code.text = shown inside

theorem exists_cutFrom_of_framed {content code : Slice}
    (h : Framed (withoutComments content) code) : ∃ inside, CutFrom content code inside := by
  obtain ⟨front, back, htook, hfirst, hlast⟩ := h
  have htext : blankComments content.text = front ++ (code.text ++ back) := htook.text
  obtain ⟨before, tail, hmarks, rfl, htail⟩ := exists_cut htext hfirst
  rw [← List.append_assoc] at htext
  obtain ⟨upto, after, hmarks', hupto, rfl⟩ := exists_cut htext hlast
  have hoffset : code.offset = content.offset + byteLength (chars before) := by
    rw [← byteLength_shown]
    exact htook.offset
  have hcuts := List.append_eq_append_iff.1 (hmarks.symm.trans hmarks')
  rcases hcuts with ⟨inside, rfl, rfl⟩ | ⟨more, rfl, -⟩
  · refine ⟨inside, ⟨before, after, by rw [hmarks, List.append_assoc], hoffset⟩, ?_⟩
    rw [shown_append] at hupto
    exact (List.append_cancel_left hupto).symm
  · -- a snippet that ends where it starts, or in front of that, is empty
    rw [shown_append, List.append_assoc, List.self_eq_append_right] at hupto
    exact ⟨[], ⟨upto ++ more, tail, by rw [hmarks, List.append_nil], hoffset⟩,
      (List.append_eq_nil_iff.1 hupto).2⟩

/-- The place of what is so many bytes into a snippet, in the text that is handed to the parser. -/
def placeInPadded (text : List Char) (code : Slice) (k : Nat) : Position :=
  position (Script.withoutMark (padded text code))
    (byteLength (padding (position text code.offset)) + k)

/-- What is in front of a character in the component, and in front of its snippet there. -/
theorem CutFrom.stands {text front back : List Char} {content code : Slice} {m : Marked}
    {seen rest : List Marked} (hcut : CutFrom content code (seen ++ m :: rest))
    (hne : front ≠ []) (htext : text = front ++ content.text ++ back)
    (hfront : content.offset = byteLength front) :
    ∃ before after, text = before ++ chars seen ++ m.char :: after ∧ before ≠ [] ∧
      code.offset = byteLength before := by
  obtain ⟨before, after, hmarks, hoffset⟩ := hcut.stretch
  refine ⟨front ++ chars before, chars rest ++ chars after ++ back, ?_, by simp [hne], ?_⟩
  · rw [htext, ← chars_marks content.text, hmarks]
    simp only [chars_append, chars_cons, List.append_assoc, List.cons_append]
  · rw [hoffset, hfront, byteLength_append]

/-- A place in a snippet, in the text that is handed to the parser, is that in the component but for
the extra columns of what is in front of it. -/
theorem placeInPadded_eq {before more : List Char} {code : Slice} {seen : List Marked}
    (hne : before ≠ []) (hoffset : code.offset = byteLength before)
    (hcode : code.text = shown seen ++ more) (after : List Char) :
    placeInPadded (before ++ chars seen ++ after) code (byteLength (shown seen)) =
      (position (before ++ chars seen ++ after) (code.offset + byteLength (shown seen))).right
        (extraColumns (lastLine seen)) := by
  have hstart : position (before ++ chars seen ++ after) code.offset = placeBehind before := by
    rw [hoffset, List.append_assoc, position_append]
  have hhere : position (before ++ chars seen ++ after) (code.offset + byteLength (shown seen)) =
      placeBehind (before ++ chars seen) := by
    rw [hoffset, byteLength_shown, ← byteLength_append, position_append]
  have hfold := foldl_step_shown seen (placeBehind before) 0
  rw [ite_self, Nat.zero_add, foldl_step] at hfold
  rw [placeInPadded, padded, hstart, hhere, hcode, withoutMark_padding hne, position_padding]
  exact hfold

/-- **The characters of snippets** are found where they stand in the component, but behind a comment
as many columns farther to the right as its characters on their line have bytes beyond the first. -/
theorem padded_place {text : List Char} {b : Block} (h : templateBlock? text = some b) :
    (∀ part ∈ partsOf (withoutComments b.content), ∀ code, part.code? = some code →
      Snippet (withoutComments b.content) code) ∧
    ∀ code, Snippet (withoutComments b.content) code →
      ∃ inside, CutFrom b.content code inside ∧
        ∀ seen m rest, inside = seen ++ m :: rest →
          let k := byteLength (shown seen)
          let here := position text (code.offset + k)
          (∃ before after, text = before ++ m.char :: after ∧ byteLength before = code.offset + k) ∧
          placeInPadded text code k = here.right (extraColumns (lastLine seen)) ∧
          (placeInPadded text code k = here ↔
            ∀ c ∈ lastLine seen, c.commented = true → c.char.utf8Size = 1) := by
  refine ⟨fun part hpart code hcode => snippet_of_mem_partsOf hpart hcode, fun code hcode => ?_⟩
  obtain ⟨inside, hcut⟩ := exists_cutFrom_of_framed (framed_of_snippet hcode)
  obtain ⟨front, back, hfront, htext, hcontent⟩ := content_of_templateBlock? h
  refine ⟨inside, hcut, ?_⟩
  rintro seen m rest rfl
  obtain ⟨before, after, rfl, hbefore, hoffset⟩ := hcut.stands hfront htext hcontent
  have hcode := hcut.text.trans (shown_append seen (m :: rest))
  have hshift := placeInPadded_eq hbefore hoffset hcode (m.char :: after)
  refine ⟨⟨_, after, rfl, ?_⟩, hshift, ?_⟩
  · rw [hoffset, byteLength_append, byteLength_shown]
  · rw [hshift, Position.right_eq_self_iff, extraColumns_eq_zero_iff]

/-- A component with a comment in front of a call, one of whose characters has two bytes. -/
def accented : List Char := "<template>\x7b\x7b <!-- é --> $t('x') \x7d\x7d</template>".toList

/-- The content of its template. -/
def accentedContent : Slice := ⟨10, "\x7b\x7b <!-- é --> $t('x') \x7d\x7d".toList⟩

/-- What stands in its interpolation, without the comment. -/
def accentedCode : Slice := ⟨12, "             $t('x') ".toList⟩

theorem padded_place_accented :
    templateBlock? accented = some ⟨accentedContent, none⟩ ∧
    Snippet (withoutComments accentedContent) accentedCode ∧
    ∃ inside, CutFrom accentedContent accentedCode inside ∧
      ∀ seen m rest, inside = seen ++ m :: rest →
        placeInPadded accented accentedCode (byteLength (shown seen)) =
          (position accented (12 + byteLength (shown seen))).right
            (extraColumns (lastLine seen)) := by
  have hblock : templateBlock? accented = some ⟨accentedContent, none⟩ := by decide +kernel
  have hcode : Snippet (withoutComments accentedContent) accentedCode :=
    .interpolation (by decide +kernel)
  obtain ⟨inside, hcut, hplaces⟩ := (padded_place hblock).2 _ hcode
  exact ⟨hblock, hcode, inside, hcut, fun seen m rest h => (hplaces seen m rest h).2.1⟩

/-- The call is reported one column too far to the right: it stands in column 25. -/
theorem misplaced_behind_comment :
    templateBlock? accented = some ⟨accentedContent, none⟩ ∧
      Snippet (withoutComments accentedContent) accentedCode ∧
      accentedCode.text = List.replicate 13 ' ' ++ "$t('x') ".toList ∧
      position accented (accentedCode.offset + 13) = ⟨1, 25⟩ ∧
      placeInPadded accented accentedCode 13 = ⟨1, 26⟩ ∧
      collectUsages ["$t"] "a.vue" accented =
        some [⟨"x", ⟨"a.vue", ⟨1, 26⟩, String.ofList accented⟩⟩] := by
  refine ⟨?_, .interpolation ?_, ?_, ?_, ?_, ?_⟩ <;> decide +kernel

end LocaleAudit.Component
