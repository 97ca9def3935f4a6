import LocaleAudit.Component.Template
import LocaleAudit.Proofs.Component.Attribute
import LocaleAudit.Proofs.Component.Blanking
import LocaleAudit.Proofs.Text.Category

/-!
# LocaleAudit.Proofs.Component.Tag

Start tags are found in two steps: a tag with the text of its attributes, and then the attributes in
that text, each step with a pattern of its own.  The steps come to the same tags as one reader that
takes the attributes with the tag, whatever the template; and a tag that is written by the rules is
found with all its attributes, each at its place in the file.

* `startTags_eq` — the two steps;
* `startTag?_of_took` — a tag as it is written;
* `scan_writtenTag` — the attributes of a template that is one tag.
-/

namespace LocaleAudit.Component

open Text Slice

/-! ## two steps -/

/-- A start tag at the start of a slice, as its name and the text of its attributes, and what
follows it. -/
def tagText? (s : Slice) : Option ((List Char × Slice) × Slice) :=
  match s.text with
  | '<' :: c :: _ =>
    if c.isAlpha then
      let (name, rest) := (s.drop 1).span isTagPart
      let left := (attributes rest).2
      let found := ⟨rest.offset, rest.text.take (rest.text.length - left.text.length)⟩
      (tagEnd? left).map ((name.text, found), ·)
    else none
  | _ => none

theorem startTag?_of_not {s : Slice} (h : ¬ ∃ c cs, s.text = '<' :: c :: cs) :
    startTag? s = none := by
  unfold startTag?
  split
  · rename_i c cs htext
    exact absurd ⟨c, cs, htext⟩ h
  · rfl

theorem tagText?_of_not {s : Slice} (h : ¬ ∃ c cs, s.text = '<' :: c :: cs) :
    tagText? s = none := by
  unfold tagText?
  split
  · rename_i c cs htext
    exact absurd ⟨c, cs, htext⟩ h
  · rfl

/-- A tag from its name and the text of its attributes. -/
def Tag.ofTexts (t : List Char × Slice) : Tag := ⟨t.1, attributePattern.all t.2⟩

/-- The two steps at the start of a slice. -/
theorem startTag?_eq (s : Slice) :
    startTag? s = (tagText? s).map fun t => (.ofTexts t.1, t.2) := by
  have hagree := attributePattern_attributes ((s.drop 1).span isTagPart).2
  by_cases h : ∃ c cs, s.text = '<' :: c :: cs
  · obtain ⟨c, cs, htext⟩ := h
    rw [startTag?, tagText?, htext]
    change (if c.isAlpha then _ else none) = Option.map _ (if c.isAlpha then _ else none)
    split
    · dsimp only
      rw [Option.map_map, ← hagree]
      rfl
    · rfl
  · rw [startTag?_of_not h, tagText?_of_not h, Option.map_none]

theorem length_of_tagText? {s rest : Slice} {t : List Char × Slice}
    (h : tagText? s = some (t, rest)) : rest.text.length < s.text.length := by
  have htag : startTag? s = some (.ofTexts t, rest) := by rw [startTag?_eq, h, Option.map_some]
  exact length_of_startTag? htag

/-- Start tags as their names and the texts of their attributes. -/
def tagTextPattern : Pattern (List Char × Slice) := ⟨tagText?, length_of_tagText?⟩

/-- Start tags with their attributes. -/
def tagPattern : Pattern Tag := ⟨startTag?, length_of_startTag?⟩

theorem startTags_eq_all (s : Slice) : startTags s = tagPattern.all s := by
  fun_induction startTags s with
  | case1 s hs => exact (Pattern.all_nil hs).symm
  | case2 s _ tag rest htag ih => rw [ih, Pattern.all_of_some (p := tagPattern) htag]
  | case3 s hs hnone ih => rw [ih, Pattern.all_of_none (p := tagPattern) hs hnone]

/-- **The two steps** find the start tags of every slice. -/
theorem startTags_eq (s : Slice) : startTags s = (tagTextPattern.all s).map Tag.ofTexts :=
  (startTags_eq_all s).trans (Pattern.all_map startTag?_eq s)

/-! ## a tag as it is written -/

/-- A text without tags, and a start tag as it is written behind it. The values of its attributes
are in quotes. -/
structure WrittenTag where
  before : List Char
  initial : Char
  more : List Char
  attributes : List WrittenAttribute
  gap : List Char
  slash : Bool
  untagged : '<' ∉ before
  letter : initial.isAlpha = true
  named : ∀ c ∈ more, isTagPart c = true
  quoted : ∀ a ∈ attributes, ∀ g ∈ a.assigned, g.value.mark ≠ []
  blank : ∀ c ∈ gap, isBlank c = true

namespace WrittenTag

/-- The name of a tag. -/
def name (w : WrittenTag) : List Char := w.initial :: w.more

/-- What stands behind the attributes of a tag. -/
def close (w : WrittenTag) : List Char := w.gap ++ ((if w.slash then ['/'] else []) ++ ['>'])

/-- What stands in front of the attributes of a tag. -/
def front (w : WrittenTag) : List Char := w.before ++ '<' :: w.name

/-- A tag with the text in front of it. -/
def text (w : WrittenTag) : List Char := w.front ++ (attributesText w.attributes ++ w.close)

end WrittenTag

/-- A letter is part of the name of a tag. -/
theorem isTagPart_of_isAlpha {c : Char} (h : c.isAlpha = true) : isTagPart c = true := by
  simp [isTagPart, isWordChar, Char.isAlphanum, h]

theorem isTagPart_of_isBlank {c : Char} (h : isBlank c = true) : isTagPart c = false := by
  have hne : ∀ d, isBlank d = false → (c == d) = false := by
    rintro d hd
    rw [beq_eq_false_iff_ne]
    rintro rfl
    rw [h] at hd
    contradiction
  simp [isTagPart, isWordChar_of_isBlank h, hne '-' (by decide), hne '.' (by decide),
    hne ':' (by decide)]

section close

variable {w : WrittenTag}

/-- What closes a tag is a slash or an angle bracket, behind blanks. -/
theorem WrittenTag.exists_close (w : WrittenTag) (t : List Char) :
    ∃ c cs, w.close ++ t = w.gap ++ c :: cs ∧ (c = '/' ∨ c = '>') := by
  rw [WrittenTag.close, List.append_assoc]
  cases w.slash with
  | true => exact ⟨'/', _, rfl, .inl rfl⟩
  | false => exact ⟨'>', _, rfl, .inr rfl⟩

theorem WrittenTag.stops_close {p : Char → Bool} (w : WrittenTag) (t : List Char)
    (hp : ∀ c, isBlank c = true → p c = false) (hslash : p '/' = false) (hbracket : p '>' = false) :
    Stops p (w.close ++ t) := by
  obtain ⟨c, cs, htext, hc⟩ := w.exists_close t
  rw [htext]
  refine stops_blanks_append w.blank hp (stops_cons.2 ?_)
  rcases hc with rfl | rfl
  · exact hslash
  · exact hbracket

/-- An attribute whose value is in quotes ends where a tag is closed. -/
theorem WrittenTag.ends_close (w : WrittenTag) {a : WrittenAttribute}
    (ha : ∀ g ∈ a.assigned, g.value.mark ≠ []) (t : List Char) : a.Ends (w.close ++ t) := by
  unfold WrittenAttribute.Ends
  cases hassigned : a.assigned with
  | none =>
      obtain ⟨c, cs, htext, hc⟩ := w.exists_close t
      have hblank : isBlank c = false := by rcases hc with rfl | rfl <;> decide
      refine ⟨w.stops_close t (fun c hc => (not_part_of_isBlank hc).1) (by decide) (by decide), ?_⟩
      rw [htext, List.dropWhile_append_of_pos w.blank,
        List.dropWhile_cons_of_neg (by simp [hblank]), stops_cons]
      rcases hc with rfl | rfl <;> decide
  | some g => exact fun hbare => absurd hbare (ha g hassigned)

/-- No attribute is read where a tag is closed. -/
theorem attribute?_close {s rest : Slice} (h : Took s w.close rest) : attribute? s = none := by
  obtain ⟨c, cs, htext, hc⟩ := w.exists_close rest.text
  have hgap := took_append s.offset w.gap (c :: cs)
  have hs : s = ⟨s.offset, w.gap ++ c :: cs⟩ := by
    rw [← htext, ← h.text]
  have hblank : isBlank c = false := by rcases hc with rfl | rfl <;> decide
  have hpart : isNamePart c = false := by rcases hc with rfl | rfl <;> decide
  rw [← hs] at hgap
  have hspan := span_eq_of_took hgap w.blank (stops_cons.2 hblank)
  have hspan' := span_eq_of_took (took_nil ⟨s.offset + byteLength w.gap, c :: cs⟩) (by simp)
    (stops_cons.2 hpart)
  rw [attribute?, hspan]
  dsimp only
  rw [hspan']
  dsimp only
  rw [if_pos (by simp)]

/-- The end of a tag is read. -/
theorem tagEnd?_of_took {s rest : Slice} (h : Took s w.close rest) : tagEnd? s = some rest := by
  obtain ⟨s', hgap, hclose, -⟩ := h.split
  have hstops : Stops isBlank s'.text := by
    rw [hclose.text]
    cases w.slash with
    | true => exact stops_cons.2 (by decide)
    | false => exact stops_cons.2 (by decide)
  rw [tagEnd?, skipBlanks_eq hgap w.blank hstops]
  cases hslash : w.slash with
  | true =>
      rw [hslash] at hclose
      obtain ⟨s'', hfirst, hlast, -⟩ := hclose.split
      have hfirst : Took s' ['/'] s'' := hfirst
      rw [strip?_eq_some_iff.2 hfirst, Option.getD_some]
      exact strip?_eq_some_iff.2 hlast
  | false =>
      rw [hslash] at hclose
      have hlast : Took s' ['>'] rest := hclose
      have hnone : s'.strip? ['/'] = none := by
        rw [strip?, Option.map_eq_none_iff, behind?_eq_none_iff, hlast.text]
        intro hprefix
        have hne := (List.cons_prefix_cons.1 hprefix).1
        contradiction
      rw [hnone, Option.getD_none]
      exact strip?_eq_some_iff.2 hlast

/-- **A start tag is read** as it is written. -/
theorem tagText?_of_took {s rest : Slice}
    (h : Took s ('<' :: w.name ++ (attributesText w.attributes ++ w.close)) rest) :
    tagText? s = some ((w.name, ⟨s.offset + byteLength ('<' :: w.name),
      attributesText w.attributes⟩), rest) := by
  obtain ⟨s₁, hfirst, hinner, -⟩ := h.split
  obtain ⟨s₂, hattributes, hclose, -⟩ := hinner.split
  have hname : Took (s.drop 1) w.name s₁ := hfirst.behind
  have htext : s.text = '<' :: w.initial :: (w.more ++ s₁.text) := hfirst.text
  have hparts : ∀ c ∈ w.name, isTagPart c = true := by
    intro c hc
    rcases List.mem_cons.1 hc with rfl | hc
    · exact isTagPart_of_isAlpha w.letter
    · exact w.named c hc
  have hstops : Stops isTagPart s₁.text := by
    rw [hattributes.text]
    cases hlist : w.attributes with
    | nil =>
        rw [hclose.text]
        exact w.stops_close rest.text (fun c hc => isTagPart_of_isBlank hc) (by decide) (by decide)
    | cons a as =>
        obtain ⟨c, cs, hgap⟩ := List.exists_cons_of_ne_nil a.apart
        have hc : c ∈ a.gap := by rw [hgap]; exact List.mem_cons_self
        rw [attributesText_cons, WrittenAttribute.text, hgap]
        exact stops_cons.2 (isTagPart_of_isBlank (a.blank c hc))
  have hspan := span_eq_of_took hname hparts hstops
  have hends : ∀ a ∈ w.attributes.getLast?, a.Ends s₂.text := by
    intro a ha
    rw [hclose.text]
    exact w.ends_close (w.quoted a (List.mem_of_getLast? ha)) rest.text
  have hread := attributes_of_took hattributes hends (attribute?_close hclose)
  unfold tagText?
  split
  · rename_i c cs htext'
    obtain ⟨-, hrest⟩ := List.cons.inj (htext.symm.trans htext')
    obtain ⟨rfl, -⟩ := List.cons.inj hrest
    rw [if_pos w.letter, hspan]
    dsimp only
    rw [hread]
    dsimp only
    rw [hattributes.take_text, tagEnd?_of_took hclose, hfirst.offset]
    rfl
  · rename_i hno
    exact absurd htext (hno _ _)

end close

/-- A template without comments is left as it is. -/
theorem withoutComments_of_absent {s : Slice} (h : ¬ opening <:+: s.text) :
    withoutComments s = s := by
  rw [withoutComments, (Commented.last h).blankComments_eq]
  rfl

/-- The one tag of a template that is written like one. -/
theorem tagTextPattern_written (w : WrittenTag) (o : Nat) :
    tagTextPattern.all ⟨o, w.text⟩ =
      [(w.name, ⟨o + byteLength w.front, attributesText w.attributes⟩)] := by
  have hbefore := took_append o w.before ('<' :: w.name ++ (attributesText w.attributes ++ w.close))
  have htag := took_append (o + byteLength w.before)
    ('<' :: w.name ++ (attributesText w.attributes ++ w.close)) []
  rw [List.append_nil] at htag
  have hread : tagTextPattern.read? _ = some _ := tagText?_of_took htag
  have htext : w.text = w.before ++ ('<' :: w.name ++ (attributesText w.attributes ++ w.close)) :=
    List.append_assoc _ _ _
  rw [htext, Pattern.all_of_took hbefore, Pattern.all_of_some hread, Pattern.all_nil rfl,
    WrittenTag.front, byteLength_append, Nat.add_assoc]
  intro front back t hsplit hne ht
  obtain ⟨c, back, rfl⟩ := List.exists_cons_of_ne_nil hne
  refine tagText?_of_not ?_
  rintro ⟨d, ds, htext⟩
  rw [ht.text] at htext
  obtain ⟨rfl, -⟩ := List.cons.inj htext
  refine w.untagged ?_
  rw [hsplit]
  exact List.mem_append_right front List.mem_cons_self

/-- The attributes of a tag that stands behind some text, each where it is written. -/
def WrittenTag.found (w : WrittenTag) (front : List Char) : List Attribute :=
  placedFrom (byteLength (front ++ w.front)) w.attributes

/-- **The attributes of a template** that is one start tag behind a text without tags. Wherever the
template stands in a file, both patterns find the attributes that are written in the tag, in order,
each with its name and its value where they stand in the file, and no part of the template comes
from another attribute. -/
theorem scan_writtenTag (w : WrittenTag) (h : ¬ opening <:+: w.text) (front back : List Char) :
    tagTextPattern.all (withoutComments ⟨byteLength front, w.text⟩) =
        [(w.name, ⟨byteLength (front ++ w.front), attributesText w.attributes⟩)] ∧
      attributePattern.all ⟨byteLength (front ++ w.front), attributesText w.attributes⟩ =
        w.found front ∧
      startTags (withoutComments ⟨byteLength front, w.text⟩) = [⟨w.name, w.found front⟩] ∧
      partsOf (withoutComments ⟨byteLength front, w.text⟩) =
        (interpolations ⟨byteLength front, w.text⟩).map .expression ++
          (w.found front).filterMap (attributePart? w.name) ∧
      ∀ b ∈ w.found front, Stands (front ++ w.text ++ back) b.name ∧
        ∀ v ∈ b.value, Stands (front ++ w.text ++ back) v := by
  have htemplate := withoutComments_of_absent (s := ⟨byteLength front, w.text⟩) h
  have htexts := tagTextPattern_written w (byteLength front)
  rw [← byteLength_append] at htexts
  have hfound : attributePattern.all ⟨byteLength (front ++ w.front), attributesText w.attributes⟩ =
      w.found front := attributePattern_written _ _
  have htags : startTags ⟨byteLength front, w.text⟩ = [⟨w.name, w.found front⟩] := by
    rw [startTags_eq, htexts, List.map_singleton, Tag.ofTexts, hfound]
  rw [htemplate]
  refine ⟨htexts, hfound, htags, ?_, ?_⟩
  · rw [partsOf, htags, List.flatMap_singleton]
  · have htext : front ++ w.text ++ back =
        front ++ w.front ++ attributesText w.attributes ++ (w.close ++ back) := by
      simp only [WrittenTag.text, List.append_assoc]
    rw [htext]
    exact fun b hb => stands_of_mem_placedFrom hb

/-- A value in quotes behind an equals sign between spaces. -/
def Assignment.spaced (quote : Char) (value : List Char) (hquote : quote = '"' ∨ quote = '\'')
    (hvalue : quote ∉ value) : Assignment :=
  ⟨[' '], [' '], .quoted quote value hquote hvalue, blank_space, blank_space⟩

/-- An attribute behind a newline. -/
def WrittenAttribute.lined (name : List Char) (assigned : Option Assignment) (hne : name ≠ [])
    (hname : name.all isNamePart = true) : WrittenAttribute where
  gap := ['\n']
  name := name
  assigned := assigned
  apart := List.cons_ne_nil _ _
  blank := blank_newline
  nonempty := hne
  named := List.all_eq_true.1 hname

/-- A tag whose values hold what ends values and tags elsewhere. -/
def mixedTag : WrittenTag where
  before := "é > ".toList
  initial := 'i'
  more := "18n-t".toList
  attributes :=
    [.lined "v-x".toList none (by decide +kernel) (by decide +kernel),
     .lined ":path".toList
       (some (.spaced '"' "a > 'é' </b".toList (.inl rfl) (by decide +kernel)))
       (by decide +kernel) (by decide +kernel),
     .lined "path".toList
       (some (.spaced '\'' "k = \"/>".toList (.inr rfl) (by decide +kernel)))
       (by decide +kernel) (by decide +kernel)]
  gap := []
  slash := true
  untagged := by decide +kernel
  letter := by decide
  named := List.all_eq_true.1 (by decide +kernel)
  quoted := by decide +kernel
  blank := blank_nil

theorem scan_writtenTag_mixed :
    (¬ opening <:+: mixedTag.text) ∧ byteLength "<template>".toList = 10 ∧
      startTags (withoutComments ⟨10, mixedTag.text⟩) = [⟨"i18n-t".toList,
        [⟨⟨23, "v-x".toList⟩, none⟩, ⟨⟨27, ":path".toList⟩, some ⟨36, "a > 'é' </b".toList⟩⟩,
         ⟨⟨50, "path".toList⟩, some ⟨58, "k = \"/>".toList⟩⟩]⟩] := by
  have h : ¬ opening <:+: mixedTag.text := by decide +kernel
  have hlength : byteLength "<template>".toList = 10 := by decide +kernel
  obtain ⟨-, -, htags, -, -⟩ := scan_writtenTag mixedTag h "<template>".toList []
  have hfound : mixedTag.found "<template>".toList =
      [⟨⟨23, "v-x".toList⟩, none⟩, ⟨⟨27, ":path".toList⟩, some ⟨36, "a > 'é' </b".toList⟩⟩,
       ⟨⟨50, "path".toList⟩, some ⟨58, "k = \"/>".toList⟩⟩] := by decide +kernel
  rw [hlength, hfound] at htags
  exact ⟨h, hlength, htags⟩

end LocaleAudit.Component
