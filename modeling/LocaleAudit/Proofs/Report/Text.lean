import LocaleAudit.Proofs.Report.Style
import LocaleAudit.Report.Text

/-!
# LocaleAudit.Proofs.Report.Text

The report for people without its colors.  What a report paints does not depend on whether it is
written in colors, and its widths count the characters that are painted.  So the report in colors is
the plain report with sequences in it, and the gutters and the carets are where the plain ones are.

* `render_sourceLines` — how the line of a source file is shown;
* `length_number_le` — every gutter has room for its number;
* `escape_not_mem_issuesText` — escapes come from the issues alone;
* `withoutStyles_issuesText` — colors never change what a report says.
-/

namespace LocaleAudit

/-! ## the texts in an issue -/

namespace Issue

/-- The texts that an issue holds. -/
def texts : Issue → List String
  | configError file error | parseError file error => [file, error]
  | missingKey context key locale => [context.file, context.sourceLine, key, locale]
  | unusedKey context => [context.file, context.key, context.locale, context.value]

/-- None of the texts in an issue holds an escape. -/
def Unescaped (i : Issue) : Prop := ∀ text ∈ i.texts, '\x1b' ∉ text.toList

/-- What a report shows of an issue. -/
def shown (i : Issue) : List String :=
  [i.file, i.message] ++ i.sourceLine?.toList ++ i.details?.toList

/-- What is shown of an issue is put together from its texts and from words. -/
theorem Unescaped.not_mem_shown {i : Issue} (h : i.Unescaped) :
    ∀ text ∈ i.shown, '\x1b' ∉ text.toList := by
  cases i <;>
    simp_all [Unescaped, texts, shown, Issue.file, Issue.message, Issue.sourceLine?, Issue.details?]

end Issue

namespace Report

open Text

/-! ## plain texts -/

@[simp] theorem render_paint (style : Style) (text : String) :
    render false (paint style text) = text.toList := by
  simp [paint]

@[simp] theorem render_plain (text : String) : render false (plain text) = text.toList :=
  render_paint .plain text

@[simp] theorem render_spaces (n : Nat) : render false (spaces n) = List.replicate n ' ' := by
  simp [spaces]

@[simp] theorem render_severitySpan (severity : Severity) :
    render false (severitySpan severity) = severity.name.toList := by
  cases severity <;> simp [severitySpan, Severity.name]

@[simp] theorem render_caretSpan (severity : Severity) :
    render false (caretSpan severity) = ['^'] := by
  cases severity <;> simp [caretSpan]

/-! ## source lines -/

/-- A line with a bar behind a gutter. -/
def barred (gutter behind : List Char) : List Char := gutter ++ ' ' :: '|' :: behind ++ ['\n']

/-- **How the line of a source file is shown**: behind a gutter with its number, and above a caret
that stands as many cells to the right as the line takes in front of the column. -/
theorem render_sourceLines (gutter : Nat) (severity : Severity) (p : Position) (line : String) :
    render false (sourceLines gutter severity p line) =
      barred (List.replicate gutter ' ') [] ++
      barred (List.leftpad gutter ' ' (toString p.line).toList) (' ' :: line.toList) ++
      barred (List.replicate gutter ' ')
        (' ' :: List.replicate (cellsBefore line p.col) ' ' ++ ['^']) := by
  simp [sourceLines, barred, List.leftpad]

theorem length_toString_le {m n : Nat} (h : m ≤ n) :
    (toString m).length ≤ (toString n).length := by
  show m.repr.length ≤ n.repr.length
  rw [← String.length_toList, ← String.length_toList, Nat.toList_repr, Nat.toList_repr]
  have hpos (k : Nat) : 0 < (Nat.toDigits 10 k).length := Nat.length_toDigits_pos
  have hn := (Nat.length_toDigits_le_iff (by decide) (hpos n)).1 Nat.le.refl
  exact (Nat.length_toDigits_le_iff (by decide) (hpos n)).2 (Nat.lt_of_le_of_lt h hn)

/-- **Every gutter has room for its number.** -/
theorem length_number_le {issues : List Issue} {i : Issue} (hi : i ∈ issues) {line : String}
    (hline : i.sourceLine? = some line) :
    (toString i.position.line).length ≤ gutterWidth issues := by
  have hmem : i.position.line ∈
      issues.filterMap fun i => i.sourceLine?.map fun _ => i.position.line :=
    List.mem_filterMap.2 ⟨i, hi, by simp [hline]⟩
  rw [gutterWidth]
  cases hmax : (issues.filterMap fun i => i.sourceLine?.map fun _ => i.position.line).max? with
  | none =>
      rw [List.max?_eq_none_iff.1 hmax] at hmem
      contradiction
  | some n => exact length_toString_le ((List.max?_eq_some_iff.1 hmax).2 _ hmem)

/-! ## escapes -/

theorem escape_not_mem_toDigits (n : Nat) : '\x1b' ∉ Nat.toDigits 10 n := by
  intro h
  have hdigit := Nat.isDigit_of_mem_toDigits (by decide) (by decide) h
  contradiction

theorem escape_not_mem_sourceLines {line : String} (h : '\x1b' ∉ line.toList) (gutter : Nat)
    (severity : Severity) (p : Position) :
    '\x1b' ∉ render false (sourceLines gutter severity p line) := by
  simp [render_sourceLines, barred, List.leftpad, h, escape_not_mem_toDigits]

theorem escape_not_mem_issueText {i : Issue} (h : i.Unescaped) (gutter : Nat) :
    '\x1b' ∉ render false (issueText gutter i) := by
  have hshown := h.not_mem_shown
  have hfile : '\x1b' ∉ i.file.toList := hshown _ (by simp [Issue.shown])
  have hmessage : '\x1b' ∉ i.message.toList := hshown _ (by simp [Issue.shown])
  have hseverity : '\x1b' ∉ i.severity.name.toList := by cases i.severity <;> decide
  have hrule : '\x1b' ∉ i.rule.name.toList := by cases i.rule <;> decide
  simp only [issueText, render_append, List.mem_append, not_or]
  refine ⟨⟨⟨?heading, ?source⟩, ?details⟩, ?ending⟩
  case heading => simp [hfile, hmessage, hseverity, hrule, escape_not_mem_toDigits]
  case source =>
    split
    · rename_i line hline
      exact escape_not_mem_sourceLines (hshown _ (by simp [Issue.shown, hline])) _ _ _
    · exact List.not_mem_nil
  case details =>
    split
    · rename_i details hdetails
      have hnote : '\x1b' ∉ details.toList := hshown _ (by simp [Issue.shown, hdetails])
      simp [hnote]
    · exact List.not_mem_nil
  case ending => simp

theorem escape_not_mem_counted (n : Nat) (one several : String) (hone : '\x1b' ∉ one.toList)
    (hseveral : '\x1b' ∉ several.toList) : '\x1b' ∉ (counted n one several).toList := by
  rw [counted]
  split
  · exact hone
  · exact hseveral

theorem escape_not_mem_summary (issues : List Issue) : '\x1b' ∉ render false (summary issues) := by
  have hdigits := escape_not_mem_toDigits
  have hproblems (n : Nat) := escape_not_mem_counted n "problem" "problems" (by decide) (by decide)
  have herrors (n : Nat) := escape_not_mem_counted n "error" "errors" (by decide) (by decide)
  have hwarnings (n : Nat) := escape_not_mem_counted n "warning" "warnings" (by decide) (by decide)
  simp [summary, failureMark, hdigits, hproblems, herrors, hwarnings]

/-- **Escapes come from the issues alone**: a report writes none of its own without colors. -/
theorem escape_not_mem_issuesText {issues : List Issue} (h : ∀ i ∈ issues, i.Unescaped) :
    '\x1b' ∉ render false (issuesText issues) := by
  rw [issuesText]
  split
  · exact List.not_mem_nil
  · rw [render_append, List.mem_append, not_or]
    refine ⟨fun hmem => ?_, escape_not_mem_summary issues⟩
    obtain ⟨s, hs, hmem⟩ := List.mem_flatMap.1 hmem
    obtain ⟨i, hi, hs⟩ := List.mem_flatMap.1 hs
    exact escape_not_mem_issueText (h i hi) _ (List.mem_flatMap.2 ⟨s, hs, hmem⟩)

/-! ## reports -/

/-- A text shows the line of a source file: the line with its number stands below a bar, and above
a caret that is as many cells to the right as the line takes in front of the column.  The three bars
are behind gutters of the same width. -/
def ShowsLine (text : List Char) (gutter : Nat) (p : Position) (line : String) : Prop :=
  ∃ number, number = List.leftpad gutter ' ' (toString p.line).toList ∧ number.length = gutter ∧
    barred (List.replicate gutter ' ') [] ++
      barred number (' ' :: line.toList) ++
      barred (List.replicate gutter ' ')
        (' ' :: List.replicate (cellsBefore line p.col) ' ' ++ ['^']) <:+: text

theorem exists_issueText {i : Issue} {line : String} (h : i.sourceLine? = some line)
    (gutter : Nat) :
    ∃ front back, issueText gutter i =
      front ++ sourceLines gutter i.severity i.position line ++ back := by
  simp only [issueText, h]
  exact ⟨_, _, List.append_assoc _ _ _⟩

theorem exists_issuesText {issues : List Issue} {i : Issue} (hi : i ∈ issues) {line : String}
    (hline : i.sourceLine? = some line) :
    ∃ front back, issuesText issues =
      front ++ sourceLines (gutterWidth issues) i.severity i.position line ++ back := by
  have hne : issues.isEmpty = false := List.isEmpty_eq_false_iff_exists_mem.2 ⟨i, hi⟩
  obtain ⟨front, back, hissue⟩ := exists_issueText hline (gutterWidth issues)
  rw [issuesText, hne, if_neg Bool.false_ne_true]
  -- the gutter and the summary are those of all issues, also when the list is cut at one of them
  generalize gutterWidth issues = gutter at hissue ⊢
  generalize summary issues = ending
  obtain ⟨above, below, rfl⟩ := List.append_of_mem hi
  refine ⟨above.flatMap (issueText gutter) ++ front,
    back ++ below.flatMap (issueText gutter) ++ ending, ?_⟩
  simp [hissue]

/-- **The lines of source files** are shown in a report, all behind gutters of one width. -/
theorem showsLine_issuesText {issues : List Issue} {i : Issue} (hi : i ∈ issues) {line : String}
    (hline : i.sourceLine? = some line) :
    ShowsLine (render false (issuesText issues)) (gutterWidth issues) i.position line := by
  obtain ⟨front, back, hreport⟩ := exists_issuesText hi hline
  refine ⟨_, rfl, ?_, render false front, render false back, ?_⟩
  · rw [List.length_leftpad, String.length_toList, Nat.max_eq_left (length_number_le hi hline)]
  · rw [hreport, render_append, render_append, render_sourceLines]

/-- **Colors never change what a report says.**  If the texts in the issues hold no escapes, then a
report in colors is the report without colors when the sequences that set styles are taken away; and
every line of a source file is then shown behind its gutter and above its caret. -/
theorem withoutStyles_issuesText {issues : List Issue} (h : ∀ i ∈ issues, i.Unescaped) :
    withoutStyles (render true (issuesText issues)) = render false (issuesText issues) ∧
      ∀ i ∈ issues, ∀ line, i.sourceLine? = some line →
        ShowsLine (withoutStyles (render true (issuesText issues))) (gutterWidth issues)
          i.position line := by
  have hplain := withoutStyles_render (escape_not_mem_issuesText h) true
  refine ⟨hplain, fun i hi line hline => ?_⟩
  rw [hplain]
  exact showsLine_issuesText hi hline

/-- Two uses of a missing key: one behind a wide character, and one in a line whose number has more
digits. -/
def unevenIssues : List Issue :=
  [.missingKey ⟨"a.js", ⟨9, 3⟩, "日 t('k')"⟩ "k" "ja",
   .missingKey ⟨"a.js", ⟨100, 1⟩, "t('k')"⟩ "k" "ja"]

theorem withoutStyles_issuesText_uneven :
    (∀ i ∈ unevenIssues, i.Unescaped) ∧
      withoutStyles (render true (issuesText unevenIssues)) =
        ["error: 'k' does not exist in 'ja'  missing-key",
         "  --> a.js:9:3",
         "    |",
         "  9 | 日 t('k')",
         "    |    ^",
         "",
         "error: 'k' does not exist in 'ja'  missing-key",
         "  --> a.js:100:1",
         "    |",
         "100 | t('k')",
         "    | ^",
         "",
         "✘ 2 problems (2 errors, 0 warnings)"].flatMap fun line => line.toList ++ ['\n'] := by
  have h : ∀ i ∈ unevenIssues, i.Unescaped := by
    simp [unevenIssues, Issue.Unescaped, Issue.texts]
  have hplain := (withoutStyles_issuesText h).1
  refine ⟨h, hplain.trans ?_⟩
  decide +kernel

end Report

end LocaleAudit
