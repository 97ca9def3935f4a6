import LocaleAudit.Proofs.Text.Slice
import LocaleAudit.Report.Style

/-!
# LocaleAudit.Proofs.Report.Style

Colors as something that can be taken away.  A text in colors holds sequences that set styles, and
nothing else in it starts like one unless the text itself holds an escape.

* `withoutStyles_escape`, `withoutStyles_append` — sequences go, and a text without escapes stays;
* `withoutStyles_render` — what stays of a text in colors is the text without colors.
-/

namespace LocaleAudit.Report

open Text

/-! ## sequences that set styles -/

/-- What stands between the bracket and the letter of a sequence. -/
def isCode (c : Char) : Bool := c.isDigit || c == ';'

/-- The text behind a sequence that sets a style, if one is at its start: an escape and a bracket,
numbers with semicolons between them, and the letter `m`. -/
def behindStyle? (text : List Char) : Option (List Char) :=
  (behind? ['\x1b', '['] text).bind fun cs => behind? ['m'] (cs.dropWhile isCode)

theorem length_of_behindStyle? {text rest : List Char} (h : behindStyle? text = some rest) :
    rest.length < text.length := by
  obtain ⟨cs, hcs, hrest⟩ := Option.bind_eq_some_iff.1 h
  have hstart := length_of_behind? hcs
  have hend := length_of_behind? hrest
  have hcodes := (List.dropWhile_sublist isCode (l := cs)).length_le
  simp only [List.length_cons, List.length_nil] at hstart hend
  omega

/-- A text without the sequences that set styles. -/
def withoutStyles (text : List Char) : List Char :=
  match text with
  | [] => []
  | c :: cs =>
    match _h : behindStyle? (c :: cs) with
    | some rest => withoutStyles rest
    | none => c :: withoutStyles cs
termination_by text.length
decreasing_by
  · exact length_of_behindStyle? _h
  · simp

@[simp] theorem withoutStyles_nil : withoutStyles [] = [] := by rw [withoutStyles]

theorem withoutStyles_of_some {text rest : List Char} (h : behindStyle? text = some rest) :
    withoutStyles text = withoutStyles rest := by
  cases text with
  | nil => simp [behindStyle?, behind?] at h
  | cons c cs =>
      rw [withoutStyles]
      split
      · rename_i h'
        rw [h, Option.some.injEq] at h'
        rw [h']
      · rename_i h'
        rw [h] at h'
        contradiction

theorem withoutStyles_of_none {c : Char} {cs : List Char} (h : behindStyle? (c :: cs) = none) :
    withoutStyles (c :: cs) = c :: withoutStyles cs := by
  rw [withoutStyles]
  split
  · rename_i h'
    rw [h] at h'
    contradiction
  · rfl

theorem behindStyle?_escape {codes : List Char} (h : ∀ c ∈ codes, isCode c = true)
    (rest : List Char) : behindStyle? (escape codes ++ rest) = some rest := by
  have hstop : Stops isCode ('m' :: rest) := stops_cons.2 (by decide)
  simp [behindStyle?, escape, behind?, hstop.dropWhile_append h]

/-- A sequence goes. -/
theorem withoutStyles_escape {codes : List Char} (h : ∀ c ∈ codes, isCode c = true)
    (rest : List Char) : withoutStyles (escape codes ++ rest) = withoutStyles rest :=
  withoutStyles_of_some (behindStyle?_escape h rest)

/-- **A text without escapes stays.** -/
theorem withoutStyles_append {cs : List Char} (h : '\x1b' ∉ cs) (rest : List Char) :
    withoutStyles (cs ++ rest) = cs ++ withoutStyles rest := by
  induction cs with
  | nil => rfl
  | cons c cs ih =>
      obtain ⟨hc, hcs⟩ := not_or.1 (mt List.mem_cons.2 h)
      have hnone : behindStyle? (c :: (cs ++ rest)) = none := by simp [behindStyle?, behind?, hc]
      rw [List.cons_append, withoutStyles_of_none hnone, ih hcs, List.cons_append]

/-! ## painted texts -/

theorem Style.isCode_of_mem_codes {style : Style} {c : Char} (h : c ∈ style.codes) :
    isCode c = true := by
  have hall : style.codes.all isCode = true := by cases style <;> decide
  exact List.all_eq_true.1 hall c h

/-- What stays of a span is its text. -/
theorem withoutStyles_span {s : Span} (h : '\x1b' ∉ s.text) (color : Bool) (rest : List Char) :
    withoutStyles (s.render color ++ rest) = s.text ++ withoutStyles rest := by
  have hreset : ∀ c ∈ ['0'], isCode c = true := List.forall_mem_singleton.2 (by decide)
  rw [Span.render]
  split
  · rw [List.append_assoc, List.append_assoc,
      withoutStyles_escape (fun _ => Style.isCode_of_mem_codes), withoutStyles_append h,
      withoutStyles_escape hreset]
  · exact withoutStyles_append h rest

@[simp] theorem render_nil (color : Bool) : render color [] = [] := rfl

@[simp] theorem render_cons (color : Bool) (s : Span) (p : Painted) :
    render color (s :: p) = s.render color ++ render color p := rfl

@[simp] theorem render_append (color : Bool) (p q : Painted) :
    render color (p ++ q) = render color p ++ render color q := List.flatMap_append

@[simp] theorem Span.render_false (s : Span) : s.render false = s.text := rfl

/-- **What stays of a painted text** is the text without colors, if that holds no escapes. -/
theorem withoutStyles_render {p : Painted} (h : '\x1b' ∉ render false p) (color : Bool) :
    withoutStyles (render color p) = render false p := by
  induction p with
  | nil => exact withoutStyles_nil
  | cons s p ih =>
      obtain ⟨hs, hp⟩ := not_or.1 (mt List.mem_append.2 h)
      rw [render_cons, withoutStyles_span hs, ih hp, render_cons, Span.render_false]

end LocaleAudit.Report
