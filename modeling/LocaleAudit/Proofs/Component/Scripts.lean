import LocaleAudit.Component.Block
import LocaleAudit.Proofs.Text.Category
import LocaleAudit.Proofs.Text.Pattern
import LocaleAudit.Proofs.Text.Search

/-!
# LocaleAudit.Proofs.Component.Scripts

The scripts of a component are found again.  Tags are told without the case of their letters, and a
search goes on behind each script, so it has to come back to the next one: neither a filler nor the
body of a script may hide the tag that ends it, not even with its last characters.

* `stripFolded?_eq_some_iff` — a beginning whatever its case;
* `scriptBlock?_of_took` — one script as it is written;
* `scriptsIn_written` — the run over fillers and scripts;
* `content_scriptBlocks` — the bodies of the scripts, and where they are.
-/

namespace LocaleAudit.Component

open Text Slice

/-! ## marks whatever their case -/

theorem stripFolded?_eq_some_iff {mark text rest : List Char} :
    stripFolded? mark text = some rest ↔
      ∃ front, text = front ++ rest ∧ front.map foldCase = mark := by
  induction mark generalizing text with
  | nil => simp [stripFolded?, eq_comm]
  | cons m ms ih =>
      cases text with
      | nil => simp [stripFolded?]
      | cons c cs =>
          rw [stripFolded?, Option.ite_none_right_eq_some, ih]
          constructor
          · rintro ⟨hc, front, rfl, rfl⟩
            exact ⟨c :: front, rfl, by rw [List.map_cons, hc]⟩
          · rintro ⟨front, htext, hmark⟩
            obtain ⟨d, front, rfl, hd, rfl⟩ := List.map_eq_cons_iff.1 hmark
            obtain ⟨rfl, rfl⟩ := List.cons.inj htext
            exact ⟨hd, front, rfl, rfl⟩

theorem stripFolded?_append {mark front : List Char} (h : front.map foldCase = mark)
    (rest : List Char) : stripFolded? mark (front ++ rest) = some rest :=
  stripFolded?_eq_some_iff.2 ⟨front, rfl, h⟩

/-- A text begins like a tag, or is empty. -/
def Ready (t : List Char) : Prop := ∀ c ∈ t.head?, foldCase c = '<'

theorem ready_append {front ms : List Char} (h : front.map foldCase = '<' :: ms)
    (rest : List Char) : Ready (front ++ rest) := by
  obtain ⟨c, cs, rfl, hc, -⟩ := List.map_eq_cons_iff.1 h
  intro d hd
  obtain rfl : c = d := Option.some.inj hd
  exact hc

/-- A tag does not begin in a text that does not hold it and end behind that text, if what is behind
begins like a tag. -/
theorem stripFolded?_append_eq_none {ms text tail : List Char} (hms : '<' ∉ ms)
    (hne : text ≠ []) (htext : ¬ '<' :: ms <:+: text.map foldCase) (htail : Ready tail) :
    stripFolded? ('<' :: ms) (text ++ tail) = none := by
  rw [Option.eq_none_iff_forall_ne_some]
  intro rest h
  obtain ⟨front, hsplit, hfront⟩ := stripFolded?_eq_some_iff.1 h
  rcases List.append_eq_append_iff.1 hsplit with ⟨more, rfl, rfl⟩ | ⟨more, rfl, -⟩
  · cases more with
    | nil =>
        rw [List.append_nil] at hfront
        exact htext (hfront ▸ List.infix_rfl)
    | cons c more =>
        -- the tag would begin anew where the text ends
        obtain ⟨d, text, rfl⟩ := List.exists_cons_of_ne_nil hne
        rw [List.cons_append, List.map_cons] at hfront
        obtain ⟨-, rfl⟩ := List.cons.inj hfront
        have hc : foldCase c = '<' := htail c rfl
        refine hms ?_
        rw [List.map_append, List.map_cons, hc]
        exact List.mem_append_right _ List.mem_cons_self
  · rw [List.map_append, hfront] at htext
    exact htext (List.prefix_append _ _).isInfix

/-- An opening tag, whatever the case of its name. -/
theorem openTag?_of_took {name opening attributes : List Char} {s rest : Slice}
    (hopening : opening.map foldCase = '<' :: name)
    (htook : Took s (opening ++ (attributes ++ ['>'])) rest)
    (hblank : ∀ c ∈ attributes.head?, isBlank c = true) (hclosed : '>' ∉ attributes) :
    openTag? name s = some (⟨s.offset + byteLength opening, attributes⟩, rest) := by
  obtain ⟨inner, hfirst, hinner, rfl⟩ := htook.split
  have hlength : opening.length = name.length + 1 := by
    rw [← List.length_map (f := foldCase), hopening, List.length_cons]
  have hword : ((attributes ++ ['>'] ++ rest.text).head?.map isWordChar).getD false = false := by
    cases attributes with
    | nil => rfl
    | cons c cs => exact isWordChar_of_isBlank (hblank c rfl)
  rw [openTag?, hfirst.text, stripFolded?_append hopening]
  dsimp only
  rw [hword, ← hlength, hfirst.drop_length]
  exact breakOn?_of_not_mem hinner hclosed

/-- A closing tag of a script, whatever the case of its name. -/
theorem scriptEnd?_append {closing gap : List Char}
    (hclosing : closing.map foldCase = "</script".toList) (hgap : ∀ c ∈ gap, isBlank c = true)
    (rest : List Char) :
    scriptEnd? (closing ++ (gap ++ '>' :: rest)) = some rest := by
  have hbehind : (gap ++ '>' :: rest).dropWhile isBlank = '>' :: rest := by
    rw [List.dropWhile_append_of_pos hgap]
    rfl
  rw [scriptEnd?, stripFolded?_append hclosing]
  dsimp only
  rw [hbehind]
  exact behind?_eq_some_iff.2 rfl

/-! ## what is written -/

/-- A script as it is written: the tag that opens it, its body, and the tag that closes it. -/
structure WrittenScript where
  /-- The opening tag up to its attributes. -/
  opening : List Char
  /-- What is in the opening tag behind its name. -/
  attributes : List Char
  /-- What is between the tags. -/
  body : List Char
  /-- The closing tag up to its end. -/
  closing : List Char
  /-- The blanks in the closing tag. -/
  gap : List Char
  opens : opening.map foldCase = '<' :: "script".toList
  blank : ∀ c ∈ attributes.head?, isBlank c = true
  unended : '>' ∉ attributes
  unclosed : ¬ "</script".toList <:+: body.map foldCase
  closes : closing.map foldCase = "</script".toList
  gaps : ∀ c ∈ gap, isBlank c = true

namespace WrittenScript

/-- The opening tag. -/
def front (w : WrittenScript) : List Char := w.opening ++ (w.attributes ++ ['>'])

/-- The closing tag. -/
def back (w : WrittenScript) : List Char := w.closing ++ (w.gap ++ ['>'])

/-- A script with its tags. -/
def text (w : WrittenScript) : List Char := w.front ++ (w.body ++ w.back)

/-- The block of a script that starts at an offset. -/
def block (o : Nat) (w : WrittenScript) : Block :=
  .ofParts ⟨o + byteLength w.opening, w.attributes⟩ ⟨o + byteLength w.front, w.body⟩

end WrittenScript

/-- A text in which no script opens. -/
structure Filler where
  text : List Char
  silent : ¬ '<' :: "script".toList <:+: text.map foldCase

/-- Scripts as they are written, with a filler in front of each. -/
def writtenText (parts : List (Filler × WrittenScript)) : List Char :=
  parts.flatMap fun p => p.1.text ++ p.2.text

/-- What stands in front of the body of the script with some number. -/
def frontOf (parts : List (Filler × WrittenScript)) (i : Nat) (p : Filler × WrittenScript) :
    List Char := writtenText (parts.take i) ++ p.1.text ++ p.2.front

/-! ## one script -/

/-- **A script is read** as it is written. -/
theorem scriptBlock?_of_took {w : WrittenScript} {s rest : Slice} (h : Took s w.text rest) :
    scriptBlock? s = some (w.block s.offset, rest) := by
  obtain ⟨inner, hfront, hinner, rfl⟩ := h.split
  have hopen := openTag?_of_took w.opens hfront w.blank w.unended
  have hmark : "</script".toList = '<' :: "/script".toList := rfl
  have hclosed : scriptEnd? (w.back ++ rest.text) = some rest.text := by
    have hend := scriptEnd?_append w.closes w.gaps rest.text
    rwa [WrittenScript.back, List.append_assoc, List.append_assoc]
  have hready : Ready (w.back ++ rest.text) := by
    rw [WrittenScript.back, List.append_assoc]
    exact ready_append (w.closes.trans hmark) _
  have hbreak : Slice.breakAt? scriptEnd?
      ⟨s.offset + byteLength w.front, w.body ++ w.back ++ rest.text⟩ =
        some (⟨s.offset + byteLength w.front, w.body⟩, rest) := by
    refine breakAt?_of_took hinner hclosed fun front back hsplit hne => ?_
    have hback : ¬ '<' :: "/script".toList <:+: back.map foldCase := by
      intro hback
      refine w.unclosed (hback.trans ?_)
      rw [hsplit, List.map_append]
      exact (List.suffix_append _ _).isInfix
    rw [scriptEnd?, hmark, stripFolded?_append_eq_none (by decide) hne hback hready]
  rw [scriptBlock?, hopen]
  dsimp only
  rw [hbreak]
  rfl

/-! ## the run -/

/-- The scripts of a component are what one pattern finds. -/
def scriptPattern : Pattern Block := ⟨scriptBlock?, length_of_scriptBlock?⟩

theorem scriptsIn_eq (s : Slice) : scriptsIn s = scriptPattern.all s := by
  fun_induction scriptsIn s with
  | case1 s hs => exact (Pattern.all_nil hs).symm
  | case2 s _ block rest hblock ih => rw [ih, Pattern.all_of_some (p := scriptPattern) hblock]
  | case3 s hs hnone ih => rw [ih, Pattern.all_of_none (p := scriptPattern) hs hnone]

/-- Nothing is found in a filler. -/
theorem all_filler (f : Filler) {s rest : Slice} (h : Took s f.text rest)
    (hready : Ready rest.text) : scriptPattern.all s = scriptPattern.all rest := by
  refine Pattern.all_of_took h fun front back t hsplit hne ht => ?_
  have hback : ¬ '<' :: "script".toList <:+: back.map foldCase := by
    intro hback
    refine f.silent (hback.trans ?_)
    rw [hsplit, List.map_append]
    exact (List.suffix_append _ _).isInfix
  change scriptBlock? t = none
  rw [scriptBlock?, openTag?, ht.text, stripFolded?_append_eq_none (by decide) hne hback hready]

theorem writtenText_cons (p : Filler × WrittenScript) (parts : List (Filler × WrittenScript)) :
    writtenText (p :: parts) = p.1.text ++ p.2.text ++ writtenText parts := List.flatMap_cons

/-- **The run** over fillers and scripts finds every script. -/
theorem scriptsIn_written (parts : List (Filler × WrittenScript)) (last : Filler) (o : Nat) :
    scriptsIn ⟨o, writtenText parts ++ last.text⟩ = parts.mapIdx fun i p =>
      p.2.block (o + byteLength (writtenText (parts.take i) ++ p.1.text)) := by
  rw [scriptsIn_eq]
  induction parts generalizing o with
  | nil =>
      have htook : Took ⟨o, last.text⟩ last.text ⟨o + byteLength last.text, []⟩ :=
        ⟨(List.append_nil _).symm, rfl⟩
      exact (all_filler last htook (by simp [Ready])).trans (Pattern.all_nil rfl)
  | cons p parts ih =>
      have hfiller := took_append o p.1.text (p.2.text ++ (writtenText parts ++ last.text))
      have hscript :=
        took_append (o + byteLength p.1.text) p.2.text (writtenText parts ++ last.text)
      have hready : Ready (p.2.text ++ (writtenText parts ++ last.text)) := by
        rw [WrittenScript.text, WrittenScript.front, List.append_assoc, List.append_assoc]
        exact ready_append p.2.opens _
      have hread : scriptPattern.read? _ = some _ := scriptBlock?_of_took hscript
      rw [writtenText_cons, List.append_assoc, List.append_assoc, all_filler p.1 hfiller hready,
        Pattern.all_of_some hread, ih, List.mapIdx_cons]
      congr 1
      refine List.mapIdx_eq_mapIdx_iff.2 fun i hi => ?_
      rw [List.take_succ_cons, writtenText_cons]
      simp only [byteLength_append, Nat.add_assoc]

theorem prefix_written {parts : List (Filler × WrittenScript)} {i : Nat}
    {p : Filler × WrittenScript} (h : parts[i]? = some p) :
    frontOf parts i p ++ p.2.body <+: writtenText parts := by
  obtain ⟨hi, rfl⟩ := List.getElem?_eq_some_iff.1 h
  rw [writtenText, flatMap_eq_of_lt _ hi, frontOf, WrittenScript.text]
  exact ⟨parts[i].2.back ++ writtenText (parts.drop (i + 1)), by
    simp only [writtenText, List.append_assoc]⟩

/-- **The scripts of a component** are the ones that are written in it, in order, and the content of
each is its body at the place where the body stands. -/
theorem content_scriptBlocks (parts : List (Filler × WrittenScript)) (last : Filler) :
    (scriptBlocks (writtenText parts ++ last.text)).map Block.content =
        parts.mapIdx (fun i p => ⟨byteLength (frontOf parts i p), p.2.body⟩) ∧
      ∀ i p, parts[i]? = some p →
        frontOf parts i p ++ p.2.body <+: writtenText parts ++ last.text := by
  refine ⟨?_, fun i p h => (prefix_written h).trans (List.prefix_append _ _)⟩
  rw [scriptBlocks, scriptsIn_written]
  refine List.ext_getElem (by simp) fun i hi _ => ?_
  rw [List.getElem_map, List.getElem_mapIdx, List.getElem_mapIdx, frontOf, Nat.zero_add,
    byteLength_append _ (WrittenScript.front _)]
  rfl

example : (scriptBlocks "é</script><SCRIPT lang='ts'>a<b>é</Script >\n<ſcript></script>".toList).map
    Block.content = [⟨29, "a<b>é".toList⟩, ⟨55, []⟩] := by decide +kernel

end LocaleAudit.Component
