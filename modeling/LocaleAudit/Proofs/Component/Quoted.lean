import LocaleAudit.Proofs.Component.Scripts

/-!
# LocaleAudit.Proofs.Component.Quoted

A script whose attributes are written with double quotes.  Neither the end of its opening tag nor
its language is looked for attribute by attribute: the tag ends at the first closing angle bracket,
and the language is the first thing that looks like a value of `lang`, in a name, in a value, or
from the end of one value on.  Where no value holds an angle bracket the body is found, and where
nothing else looks like it the language is that of the attribute `lang`.

* `findLang?_append` — the search for the language passes over what it cannot read;
* `findLang?_written` — the run over the attributes;
* `scriptBlocks_quoted` — when the body is found, and which language.
-/

namespace LocaleAudit.Component

open Text Slice

/-! ## the search for a language -/

/-- Two texts are cut at the first character of another kind. -/
theorem append_cons_inj {p : Char → Prop} {front back s t : List Char} {c d : Char}
    (hfront : ∀ x ∈ front, p x) (hback : ∀ x ∈ back, p x) (hc : ¬ p c) (hd : ¬ p d)
    (h : front ++ c :: s = back ++ d :: t) : front = back ∧ c = d ∧ s = t := by
  induction front generalizing back with
  | nil =>
      cases back with
      | nil => exact ⟨rfl, List.cons.inj h⟩
      | cons x back =>
          obtain ⟨rfl, -⟩ := List.cons.inj h
          exact absurd (hback c List.mem_cons_self) hc
  | cons x front ih =>
      cases back with
      | nil =>
          obtain ⟨rfl, -⟩ := List.cons.inj h
          exact absurd (hfront x List.mem_cons_self) hd
      | cons y back =>
          obtain ⟨rfl, htail⟩ := List.cons.inj h
          obtain ⟨rfl, hrest⟩ := ih (fun z hz => hfront z (List.mem_cons_of_mem x hz))
            (fun z hz => hback z (List.mem_cons_of_mem x hz)) htail
          exact ⟨rfl, hrest⟩

/-- The name `lang` and an equals sign, with blanks behind each. -/
def LangSign (sign : List Char) : Prop :=
  ∃ gap pad, sign = "lang".toList ++ (gap ++ '=' :: pad) ∧ (∀ c ∈ gap, isBlank c = true) ∧
    ∀ c ∈ pad, isBlank c = true

theorem not_mem_blanks {gap : List Char} (hgap : ∀ c ∈ gap, isBlank c = true) {c : Char}
    (hc : isBlank c = false) : c ∉ gap := by
  intro hmem
  rw [hgap c hmem] at hc
  contradiction

theorem LangSign.not_mem_quote {sign : List Char} (h : LangSign sign) : '"' ∉ sign := by
  obtain ⟨gap, pad, rfl, hgap, hpad⟩ := h
  have hfirst := not_mem_blanks hgap (c := '"') (by decide)
  have hsecond := not_mem_blanks hpad (c := '"') (by decide)
  simp [hfirst, hsecond]

/-- Where a name ends in front of a value, it is `lang` if it ends there for the search as well. -/
theorem LangSign.name_eq {sign name s t : List Char} {quote : Char} (h : LangSign sign)
    (hname : ∀ c ∈ name, isBlank c = false ∧ c ≠ '=')
    (htext : name ++ '=' :: '"' :: s = sign ++ quote :: t) :
    name = "lang".toList ∧ quote = '"' ∧ s = t := by
  obtain ⟨gap, pad, rfl, hgap, hpad⟩ := h
  have hlang : ∀ c ∈ "lang".toList ++ gap, c ≠ '=' := by
    rintro c hc rfl
    exact (List.mem_append.1 hc).elim (by decide) (not_mem_blanks hgap (by decide))
  rw [List.append_assoc, List.append_assoc, List.cons_append, ← List.append_assoc] at htext
  obtain ⟨rfl, -, hvalue⟩ := append_cons_inj (p := (· ≠ '=')) (fun c hc => (hname c hc).2) hlang
    (by simp) (by simp) htext
  cases gap with
  | cons d gap =>
      have hd := (hname d (by simp)).1
      rw [hgap d List.mem_cons_self] at hd
      contradiction
  | nil =>
      cases pad with
      | cons d pad =>
          obtain ⟨rfl, -⟩ := List.cons.inj hvalue
          exact absurd (hpad '"' List.mem_cons_self) (by decide)
      | nil =>
          obtain ⟨hquote, hrest⟩ := List.cons.inj hvalue
          exact ⟨List.append_nil _, hquote.symm, hrest⟩

/-- What a value of `lang` looks like. -/
theorem exists_of_langValue? {text value : List Char} (h : langValue? text = some value) :
    ∃ sign quote c rest, text = sign ++ quote :: c :: rest ∧ LangSign sign ∧
      (quote = '"' ∨ quote = '\'') ∧ c ≠ '"' ∧ c ≠ '\'' := by
  obtain ⟨behindName, hname, h⟩ := Option.bind_eq_some_iff.1 h
  obtain ⟨behindSign, hsign, h⟩ := Option.bind_eq_some_iff.1 h
  dsimp only at h
  split at h
  · rename_i quote rest hquote
    rw [Option.ite_none_right_eq_some] at h
    obtain ⟨hcond, -⟩ := h
    rw [Bool.and_eq_true, Bool.and_eq_true, Bool.or_eq_true, beq_iff_eq, beq_iff_eq] at hcond
    obtain ⟨⟨hkind, hvalue⟩, -⟩ := hcond
    have hblanks (cs : List Char) : ∀ c ∈ cs.takeWhile isBlank, isBlank c = true := fun c hc =>
      List.all_eq_true.1 List.all_takeWhile c hc
    have hgap : behindName.takeWhile isBlank ++ '=' :: behindSign = behindName := by
      rw [show '=' :: behindSign = behindName.dropWhile isBlank from behind?_eq_some_iff.1 hsign]
      exact List.takeWhile_append_dropWhile
    have hpad : behindSign.takeWhile isBlank ++ quote :: rest = behindSign := by
      rw [← hquote]
      exact List.takeWhile_append_dropWhile
    cases rest with
    | nil => contradiction
    | cons c rest =>
        have hc : c ≠ '"' ∧ c ≠ '\'' := by
          constructor <;> rintro rfl <;> contradiction
        refine ⟨_, quote, c, rest, ?_, ⟨_, _, rfl, hblanks behindName, hblanks behindSign⟩, hkind,
          hc⟩
        rw [List.append_assoc, List.append_assoc, List.cons_append, hpad, hgap]
        exact (behind?_eq_some_iff.1 hname).symm
  · contradiction

/-- Whether a word ends where a text does, if one ends in front of it or not. -/
def behindWord (b : Bool) (front : List Char) : Bool := front.foldl (fun _ c => isWordChar c) b

theorem behindWord_concat (b : Bool) (front : List Char) (c : Char) :
    behindWord b (front ++ [c]) = isWordChar c := by
  rw [behindWord, List.foldl_append]
  rfl

/-- **The search passes over** a text in which no value can be read. -/
theorem findLang?_append {front : List Char} (b : Bool) (back : List Char)
    (h : ∀ before after, front = before ++ after → after ≠ [] → behindWord b before = false →
      langValue? (after ++ back) = none) :
    findLang? b (front ++ back) = findLang? (behindWord b front) back := by
  induction front generalizing b with
  | nil => rfl
  | cons c cs ih =>
      have hrest := ih (isWordChar c) fun before after hsplit =>
        h (c :: before) after (by rw [hsplit]; rfl)
      have hnone : (if b then none else langValue? (c :: (cs ++ back))) = none := by
        cases b with
        | true => rfl
        | false => exact h [] (c :: cs) rfl (List.cons_ne_nil c cs) rfl
      rw [List.cons_append, findLang?, hnone]
      exact hrest

theorem langValue?_of_ne {c : Char} (hc : c ≠ 'l') (cs : List Char) :
    langValue? (c :: cs) = none := by
  have hbehind : behind? "lang".toList (c :: cs) = none :=
    behind?_eq_none_iff.2 fun h => hc (List.cons_prefix_cons.1 h).1.symm
  rw [langValue?, hbehind]
  rfl

theorem findLang?_cons {c : Char} (hc : c ≠ 'l') (b : Bool) (cs : List Char) :
    findLang? b (c :: cs) = findLang? (isWordChar c) cs := by
  rw [findLang?, langValue?_of_ne hc, ite_self]

/-! ## attributes in double quotes -/

/-- An attribute as it is written: blanks, a name, and a value in double quotes. -/
structure QuotedAttribute where
  gap : List Char
  name : List Char
  value : List Char
  apart : gap ≠ []
  blank : ∀ c ∈ gap, isBlank c = true
  named : ∀ c ∈ name, isLetter c = true ∨ c = '-'
  quoted : '"' ∉ value

namespace QuotedAttribute

/-- An attribute with the blanks in front of it. -/
def text (a : QuotedAttribute) : List Char :=
  a.gap ++ (a.name ++ '=' :: '"' :: (a.value ++ ['"']))

/-- An attribute that tells the language: its value is not empty and holds no quotes. -/
def isLang (a : QuotedAttribute) : Bool :=
  a.name == "lang".toList && !a.value.isEmpty && !a.value.contains '\''

/-- Nothing in an attribute is taken for the language. If the name ends in the word `lang` then the
value is empty or begins with a quote, and where the word `lang` and an equals sign stand in the
value, more of the value follows, and it does not begin with a quote. -/
structure Silent (a : QuotedAttribute) : Prop where
  name : a.name = "lang".toList ∨ "-lang".toList <:+ a.name → ∀ c ∈ a.value.head?, c = '\''
  value : ∀ front sign back, a.value = front ++ (sign ++ back) → behindWord false front = false →
    LangSign sign → ∃ c ∈ back.head?, c ≠ '\''

end QuotedAttribute

/-- An attribute is silent if its name does not end in the word `lang` and its value lacks that word
or an equals sign. -/
theorem QuotedAttribute.Silent.of_lacks {a : QuotedAttribute}
    (hname : a.name = "lang".toList ∨ "-lang".toList <:+ a.name → ∀ c ∈ a.value.head?, c = '\'')
    (hvalue : ¬ "lang".toList <:+: a.value ∨ '=' ∉ a.value) : a.Silent where
  name := hname
  value := by
    rintro front sign back hsplit - ⟨gap, pad, rfl, -, -⟩
    rw [hsplit] at hvalue
    rcases hvalue with hlang | hsign
    · refine absurd ⟨front, gap ++ '=' :: pad ++ back, ?_⟩ hlang
      simp only [List.append_assoc]
    · refine absurd ?_ hsign
      simp only [List.mem_append, List.mem_cons, true_or, or_true]

/-- A letter is a character of a word. -/
theorem isWordChar_of_isLetter {c : Char} (h : isLetter c = true) : isWordChar c = true := by
  rw [isLetter, Bool.or_eq_true, Bool.and_eq_true] at h
  unfold isWordChar isLetter
  rcases h with h | ⟨hbig, h⟩
  · simp [Char.isAlphanum, h]
  · simp_all

/-- A name has no characters but those of words and hyphens. -/
theorem QuotedAttribute.not_mem_name (a : QuotedAttribute) {c : Char} (hc : isWordChar c = false)
    (hne : c ≠ '-') : c ∉ a.name := by
  intro hmem
  rcases a.named c hmem with h | h
  · rw [isWordChar_of_isLetter h] at hc
    contradiction
  · exact hne h

theorem QuotedAttribute.name_char (a : QuotedAttribute) : ∀ c ∈ a.name,
    isBlank c = false ∧ c ≠ '=' := by
  intro c hc
  constructor
  · cases hblank : isBlank c with
    | false => rfl
    | true =>
        refine absurd hc (a.not_mem_name (isWordChar_of_isBlank hblank) ?_)
        rintro rfl
        contradiction
  · rintro rfl
    exact a.not_mem_name (by decide) (by decide) hc

section passing

variable {a : QuotedAttribute}

/-- Nothing is read in blanks. -/
theorem findLang?_gap (a : QuotedAttribute) (b : Bool) (back : List Char) :
    findLang? b (a.gap ++ back) = findLang? false back := by
  have hnone : ∀ before after, a.gap = before ++ after → after ≠ [] → behindWord b before = false →
      langValue? (after ++ back) = none := by
    intro before after hsplit hne _
    obtain ⟨c, after, rfl⟩ := List.exists_cons_of_ne_nil hne
    refine langValue?_of_ne ?_ (after ++ back)
    rintro rfl
    have hblank := a.blank 'l' (by rw [hsplit]; exact List.mem_append_right _ List.mem_cons_self)
    contradiction
  have hword : behindWord b a.gap = false := by
    obtain ⟨init, c, hgap⟩ := (List.eq_nil_or_concat a.gap).resolve_left a.apart
    rw [List.concat_eq_append] at hgap
    rw [hgap, behindWord_concat]
    exact isWordChar_of_isBlank (a.blank c (by rw [hgap]; exact List.mem_concat_self))
  rw [findLang?_append b back hnone, hword]

/-- A name that ends in the word `lang` is that word, or ends in it behind a hyphen. -/
theorem QuotedAttribute.name_of_append (a : QuotedAttribute) {before : List Char}
    (hname : a.name = before ++ "lang".toList) (hword : behindWord false before = false) :
    a.name = "lang".toList ∨ "-lang".toList <:+ a.name := by
  rcases List.eq_nil_or_concat before with rfl | ⟨init, c, rfl⟩
  · exact .inl hname
  · rw [List.concat_eq_append] at hname hword
    rw [behindWord_concat] at hword
    have hmem : c ∈ a.name := by simp [hname]
    obtain rfl : c = '-' := Classical.byContradiction fun hne => a.not_mem_name hword hne hmem
    rw [List.append_assoc] at hname
    exact .inr ⟨init, hname.symm⟩

/-- Nothing is read in a name whose value is silent. -/
theorem findLang?_name (ha : a.Silent) (back : List Char) :
    findLang? false (a.name ++ '=' :: '"' :: (a.value ++ '"' :: back)) =
      findLang? false (a.value ++ '"' :: back) := by
  have hnone : ∀ before after, a.name = before ++ after → after ≠ [] →
      behindWord false before = false →
        langValue? (after ++ '=' :: '"' :: (a.value ++ '"' :: back)) = none := by
    intro before after hsplit _ hword
    rw [Option.eq_none_iff_forall_ne_some]
    intro value hvalue
    obtain ⟨sign, quote, c, rest, htext, hsign, -, hc, hc'⟩ := exists_of_langValue? hvalue
    have hafter : ∀ c ∈ after, isBlank c = false ∧ c ≠ '=' := fun c hc =>
      a.name_char c (hsplit ▸ List.mem_append_right before hc)
    obtain ⟨rfl, rfl, hrest⟩ := hsign.name_eq hafter htext
    have hhead := ha.name (a.name_of_append hsplit hword)
    cases hv : a.value with
    | nil =>
        rw [hv] at hrest
        exact hc (List.cons.inj hrest).1.symm
    | cons d value =>
        rw [hv] at hrest hhead
        obtain ⟨rfl, -⟩ := List.cons.inj hrest
        exact hc' (hhead d rfl)
  rw [findLang?_append false _ hnone, findLang?_cons (by decide), findLang?_cons (by decide)]
  rfl

/-- Nothing is read in a value that is silent, nor from its end on. -/
theorem findLang?_value (ha : a.Silent) (back : List Char) :
    findLang? false (a.value ++ '"' :: back) = findLang? false back := by
  have hnone : ∀ before after, a.value = before ++ after → after ≠ [] →
      behindWord false before = false → langValue? (after ++ '"' :: back) = none := by
    intro before after hsplit _ hword
    rw [Option.eq_none_iff_forall_ne_some]
    intro value hvalue
    obtain ⟨sign, quote, c, rest, htext, hsign, hquote, -⟩ := exists_of_langValue? hvalue
    have hends : ∀ tail, after = sign ++ tail → ∃ c ∈ tail.head?, c ≠ '\'' := fun tail htail =>
      ha.value before sign tail (by rw [hsplit, htail]) hword hsign
    rcases List.append_eq_append_iff.1 htext with ⟨more, rfl, hmore⟩ | ⟨more, rfl, hmore⟩
    · cases more with
      | nil =>
          obtain ⟨c, hc, -⟩ := hends [] (by simp)
          contradiction
      | cons d more =>
          obtain ⟨rfl, -⟩ := List.cons.inj hmore
          exact hsign.not_mem_quote (by simp)
    · obtain ⟨d, hd, hne⟩ := hends more rfl
      cases more with
      | nil => contradiction
      | cons e more =>
          obtain rfl : e = d := Option.some.inj hd
          obtain ⟨rfl, -⟩ := List.cons.inj hmore
          refine hquote.elim (fun h => a.quoted ?_) hne
          rw [hsplit, h]
          simp
  rw [findLang?_append false _ hnone, findLang?_cons (by decide)]
  rfl

/-- An attribute that is silent is passed over. -/
theorem findLang?_silent (ha : a.Silent) (b : Bool) (back : List Char) :
    findLang? b (a.text ++ back) = findLang? false back := by
  have htext : a.text ++ back = a.gap ++ (a.name ++ '=' :: '"' :: (a.value ++ '"' :: back)) := by
    simp [QuotedAttribute.text]
  rw [htext, findLang?_gap, findLang?_name ha, findLang?_value ha]

theorem langValue?_append {value : List Char} (hne : value ≠ []) (hquoted : '"' ∉ value)
    (hsingle : '\'' ∉ value) (back : List Char) :
    langValue? ("lang".toList ++ '=' :: '"' :: (value ++ '"' :: back)) = some value := by
  have hbehind : behind? "lang".toList ("lang".toList ++ '=' :: '"' :: (value ++ '"' :: back)) =
      some ('=' :: '"' :: (value ++ '"' :: back)) := behind?_eq_some_iff.2 rfl
  have hall : ∀ c ∈ value, (!(c == '"' || c == '\'')) = true := by
    intro c hc
    have hdouble : c ≠ '"' := by rintro rfl; exact hquoted hc
    have hother : c ≠ '\'' := by rintro rfl; exact hsingle hc
    simp [hdouble, hother]
  have htake : (value ++ '"' :: back).takeWhile (fun c => !(c == '"' || c == '\'')) = value := by
    rw [List.takeWhile_append_of_pos hall]
    exact List.append_nil value
  have hlength : value.length < (value ++ '"' :: back).length := by
    rw [List.length_append, List.length_cons]
    omega
  rw [langValue?, hbehind]
  change (if (true && !((value ++ '"' :: back).takeWhile _).isEmpty &&
    decide (((value ++ '"' :: back).takeWhile _).length < (value ++ '"' :: back).length)) = true
      then some ((value ++ '"' :: back).takeWhile _) else none) = some value
  rw [htake, decide_eq_true hlength, if_pos (by simpa using hne)]

/-- An attribute that tells the language is read. -/
theorem findLang?_isLang (ha : a.isLang = true) (b : Bool) (back : List Char) :
    findLang? b (a.text ++ back) = some a.value := by
  rw [QuotedAttribute.isLang, Bool.and_eq_true, Bool.and_eq_true, beq_iff_eq] at ha
  obtain ⟨⟨hname, hne⟩, hsingle⟩ := ha
  have htext : a.text ++ back =
      a.gap ++ ("lang".toList ++ '=' :: '"' :: (a.value ++ '"' :: back)) := by
    simp [QuotedAttribute.text, hname]
  have hvalue := langValue?_append (by simpa using hne) a.quoted (by simpa using hsingle) back
  rw [htext, findLang?_gap]
  have hlang : "lang".toList = 'l' :: "ang".toList := rfl
  rw [hlang] at hvalue ⊢
  rw [List.cons_append] at hvalue ⊢
  rw [findLang?, if_neg Bool.false_ne_true, hvalue]

end passing

/-- Attributes as they are written, in a row. -/
def quotedText (attributes : List QuotedAttribute) : List Char :=
  attributes.flatMap QuotedAttribute.text

/-- **The run** over attributes finds the first one that tells the language, if the ones in front of
it are silent. -/
theorem findLang?_written {attributes : List QuotedAttribute}
    (h : ∀ a ∈ attributes.takeWhile (!·.isLang), a.Silent) :
    findLang? false (quotedText attributes) =
      (attributes.find? QuotedAttribute.isLang).map QuotedAttribute.value := by
  induction attributes with
  | nil => rfl
  | cons a attributes ih =>
      rw [quotedText, List.flatMap_cons]
      cases ha : a.isLang with
      | true => rw [findLang?_isLang ha, List.find?_cons_of_pos ha, Option.map_some]
      | false =>
          have htake : (a :: attributes).takeWhile (!·.isLang) =
              a :: attributes.takeWhile (!·.isLang) := by simp [ha]
          rw [htake] at h
          rw [findLang?_silent (h a List.mem_cons_self), List.find?_cons_of_neg (by simp [ha])]
          exact ih fun a' ha' => h a' (List.mem_cons_of_mem a ha')

/-! ## the script -/

/-- What opens a script. -/
def scriptOpen : List Char := ['<', 's', 'c', 'r', 'i', 'p', 't']

/-- What closes a script, up to the end of the tag. -/
def scriptClose : List Char := ['<', '/', 's', 'c', 'r', 'i', 'p', 't']

/-- The opening tag of a script with some attributes. -/
def quotedFront (attributes : List QuotedAttribute) : List Char :=
  scriptOpen ++ (quotedText attributes ++ ['>'])

/-- A script with some attributes and a body. -/
def quotedScript (attributes : List QuotedAttribute) (body : List Char) : List Char :=
  quotedFront attributes ++ (body ++ (scriptClose ++ ['>']))

theorem mem_quotedText {attributes : List QuotedAttribute} :
    '>' ∈ quotedText attributes ↔ ∃ a ∈ attributes, '>' ∈ a.value := by
  rw [quotedText, List.mem_flatMap]
  refine exists_congr fun a => and_congr_right fun _ => ?_
  have hgap : '>' ∉ a.gap := not_mem_blanks a.blank (by decide)
  have hname : '>' ∉ a.name := a.not_mem_name (by decide) (by decide)
  simp [QuotedAttribute.text, hgap, hname]

theorem blank_quotedText (attributes : List QuotedAttribute) :
    ∀ c ∈ (quotedText attributes).head?, isBlank c = true := by
  intro c hc
  cases attributes with
  | nil => contradiction
  | cons a attributes =>
      obtain ⟨d, gap, hgap⟩ := List.exists_cons_of_ne_nil a.apart
      rw [quotedText, List.flatMap_cons, QuotedAttribute.text, hgap] at hc
      obtain rfl : d = c := Option.some.inj hc
      exact a.blank d (by rw [hgap]; exact List.mem_cons_self)

section script

variable {attributes : List QuotedAttribute} {body : List Char}

/-- Attributes without angle brackets are the attributes of a script. -/
def quotedParts (hvalues : '>' ∉ quotedText attributes)
    (hbody : ¬ scriptClose <:+: body.map foldCase) : WrittenScript where
  opening := scriptOpen
  attributes := quotedText attributes
  body := body
  closing := scriptClose
  gap := []
  opens := by decide
  blank := blank_quotedText attributes
  unended := hvalues
  unclosed := hbody
  closes := by decide
  gaps := blank_nil

theorem text_quotedParts (hvalues : '>' ∉ quotedText attributes)
    (hbody : ¬ scriptClose <:+: body.map foldCase) :
    (quotedParts hvalues hbody).text = quotedScript attributes body := rfl

/-- A filler without text. -/
def noFiller : Filler := ⟨[], by decide⟩

/-- A script without angle brackets in its values is read as it is written. -/
theorem scriptBlocks_quotedScript (hvalues : '>' ∉ quotedText attributes)
    (hbody : ¬ scriptClose <:+: body.map foldCase) :
    scriptBlocks (quotedScript attributes body) =
      [⟨⟨byteLength (quotedFront attributes), body⟩,
        (findLang? false (quotedText attributes)).map String.ofList⟩] := by
  have hrun := scriptsIn_written [(noFiller, quotedParts hvalues hbody)] noFiller 0
  have htext : writtenText [(noFiller, quotedParts hvalues hbody)] ++ noFiller.text =
      quotedScript attributes body := by
    simp [writtenText, noFiller, text_quotedParts]
  rw [htext, List.mapIdx_cons, List.mapIdx_nil] at hrun
  have hplace : 0 + byteLength (writtenText ([(noFiller, quotedParts hvalues hbody)].take 0) ++
      noFiller.text) = 0 := rfl
  rw [scriptBlocks, hrun, hplace, WrittenScript.block, Nat.zero_add, Nat.zero_add]
  rfl

theorem breakBefore?_scriptEnd?_ne_none (front : List Char) :
    breakBefore? scriptEnd? (front ++ (scriptClose ++ ['>'])) ≠ none := by
  have hmark : scriptClose.map foldCase = "</script".toList := by decide
  have hclosed : scriptEnd? (scriptClose ++ ['>']) = some [] :=
    scriptEnd?_append hmark blank_nil []
  intro hnone
  rw [breakBefore?_eq_none_iff.1 hnone front _ rfl] at hclosed
  contradiction

theorem scriptBlock?_of_openTag? {s attributes inner : Slice} {content rest : List Char}
    (hopen : openTag? "script".toList s = some (attributes, inner))
    (hbreak : breakBefore? scriptEnd? inner.text = some (content, rest)) :
    scriptBlock? s = some (.ofParts attributes ⟨inner.offset, content⟩,
      ⟨inner.offset + (byteLength inner.text - byteLength rest), rest⟩) := by
  rw [scriptBlock?, hopen]
  dsimp only
  rw [Slice.breakAt?, hbreak]
  rfl

/-- A script with an angle bracket in a value is found too early. -/
theorem scriptBlocks_of_mem (hvalues : '>' ∈ quotedText attributes) (body : List Char) :
    ∃ b bs, scriptBlocks (quotedScript attributes body) = b :: bs ∧
      b.content.offset < byteLength (quotedFront attributes) := by
  obtain ⟨before, after, hsplit, hbefore⟩ := List.eq_append_cons_of_mem hvalues
  have hblank : ∀ c ∈ before.head?, isBlank c = true := by
    intro c hc
    refine blank_quotedText attributes c ?_
    rw [hsplit, List.head?_append, hc]
    rfl
  have htook := took_append 0 (scriptOpen ++ (before ++ ['>']))
    (after ++ '>' :: (body ++ (scriptClose ++ ['>'])))
  have happend (mark close : List Char) :
      mark ++ (before ++ ['>']) ++ (after ++ '>' :: (body ++ close)) =
        mark ++ (before ++ '>' :: after ++ ['>']) ++ (body ++ close) := by simp
  rw [happend, ← hsplit] at htook
  have hmark : scriptOpen.map foldCase = '<' :: "script".toList := by decide
  have hopen := openTag?_of_took hmark htook hblank hbefore
  obtain ⟨⟨content, rest⟩, hbreak⟩ :=
    Option.ne_none_iff_exists'.1 (breakBefore?_scriptEnd?_ne_none (after ++ '>' :: body))
  rw [List.append_assoc, List.cons_append] at hbreak
  have hread : scriptPattern.read? _ = some _ := scriptBlock?_of_openTag? hopen hbreak
  refine ⟨_, _, (scriptsIn_eq _).trans (Pattern.all_of_some hread), ?_⟩
  have hshorter (mark : List Char) : 0 + byteLength (mark ++ (before ++ ['>'])) <
      byteLength (mark ++ (before ++ '>' :: after ++ ['>'])) := by
    have hpos := '>'.utf8Size_pos
    simp only [byteLength_append, byteLength_cons]
    omega
  rw [quotedFront, hsplit]
  exact hshorter _

end script

/-- **A script with quoted attributes.** Its body is found where it stands if and only if no value
holds a closing angle bracket. Its language is then that of the first attribute `lang` that tells
one, if the attributes in front of that one are silent. -/
theorem scriptBlocks_quoted (attributes : List QuotedAttribute) (body : List Char)
    (hbody : ¬ scriptClose <:+: body.map foldCase) :
    ((scriptBlocks (quotedScript attributes body)).map Block.content =
        [⟨byteLength (quotedFront attributes), body⟩] ↔ ∀ a ∈ attributes, '>' ∉ a.value) ∧
      ((∀ a ∈ attributes, '>' ∉ a.value) →
        (∀ a ∈ attributes.takeWhile (!·.isLang), a.Silent) →
          scriptBlocks (quotedScript attributes body) =
            [⟨⟨byteLength (quotedFront attributes), body⟩,
              (attributes.find? QuotedAttribute.isLang).map (String.ofList ·.value)⟩]) := by
  have hmem : (∀ a ∈ attributes, '>' ∉ a.value) ↔ '>' ∉ quotedText attributes := by
    rw [mem_quotedText]
    simp
  rw [hmem]
  refine ⟨⟨fun h hvalues => ?_, fun hvalues => ?_⟩, fun hvalues hsilent => ?_⟩
  · obtain ⟨b, bs, hblocks, hlt⟩ := scriptBlocks_of_mem hvalues body
    rw [hblocks, List.map_cons] at h
    rw [(List.cons.inj h).1] at hlt
    exact Nat.lt_irrefl _ hlt
  · rw [scriptBlocks_quotedScript hvalues hbody, List.map_singleton]
  · rw [scriptBlocks_quotedScript hvalues hbody, findLang?_written hsilent, Option.map_map]
    rfl

/-- An attribute behind a space. -/
def QuotedAttribute.spaced (name value : List Char)
    (hname : name.all (fun c => isLetter c || c == '-') = true) (hvalue : '"' ∉ value) :
    QuotedAttribute where
  gap := [' ']
  name := name
  value := value
  apart := List.cons_ne_nil _ _
  blank := blank_space
  named c hc := by simpa using List.all_eq_true.1 hname c hc
  quoted := hvalue

/-- Attributes in front of `lang="ts"` that look like it, and one behind it. -/
def likeLang : List QuotedAttribute :=
  [.spaced "data-lang".toList "'x'".toList (by decide +kernel) (by decide +kernel),
   .spaced "xlang".toList "js".toList (by decide +kernel) (by decide +kernel),
   .spaced "title".toList "it's the lang of a script".toList (by decide +kernel)
     (by decide +kernel),
   .spaced "on-x".toList "a='/script'".toList (by decide +kernel) (by decide +kernel),
   .spaced "lang".toList [] (by decide +kernel) (by decide +kernel),
   .spaced "lang".toList "ts".toList (by decide +kernel) (by decide +kernel),
   .spaced "data-lang".toList "js".toList (by decide +kernel) (by decide +kernel)]

theorem scriptBlocks_quoted_likeLang :
    (¬ scriptClose <:+: "a < b </scrip".toList.map foldCase) ∧
      (∀ a ∈ likeLang, '>' ∉ a.value) ∧ (∀ a ∈ likeLang.takeWhile (!·.isLang), a.Silent) ∧
        scriptBlocks (quotedScript likeLang "a < b </scrip".toList) =
          [⟨⟨121, "a < b </scrip".toList⟩, some "ts"⟩] := by
  have hbody : ¬ scriptClose <:+: "a < b </scrip".toList.map foldCase := by decide +kernel
  have hvalues : ∀ a ∈ likeLang, '>' ∉ a.value := by decide +kernel
  have hsilent : ∀ a ∈ likeLang.takeWhile (!·.isLang), a.Silent := by
    have hall : ∀ a ∈ likeLang.takeWhile (!·.isLang),
        (a.name = "lang".toList ∨ "-lang".toList <:+ a.name →
          a.value.head?.all (· == '\'') = true) ∧
            (¬ "lang".toList <:+: a.value ∨ '=' ∉ a.value) := by decide +kernel
    refine fun a ha => .of_lacks (fun hname c hc => ?_) (hall a ha).2
    exact beq_iff_eq.1 ((Option.all_eq_true _ _).1 ((hall a ha).1 hname) c hc)
  have hlength : byteLength (quotedFront likeLang) = 121 := by decide +kernel
  have hlang : (likeLang.find? QuotedAttribute.isLang).map (String.ofList ·.value) = some "ts" := by
    decide +kernel
  have hblocks := (scriptBlocks_quoted likeLang "a < b </scrip".toList hbody).2 hvalues hsilent
  rw [hlength, hlang] at hblocks
  exact ⟨hbody, hvalues, hsilent, hblocks⟩

/-- A value with angle brackets in front of the language. -/
def bracketed : List QuotedAttribute :=
  [.spaced "generic".toList "T extends Array<string>".toList (by decide +kernel)
     (by decide +kernel),
   .spaced "lang".toList "ts".toList (by decide +kernel) (by decide +kernel)]

/-- An angle bracket in a value ends the tag: the body is found too early, and the language behind
the value is lost. -/
theorem script_ended_in_value :
    (¬ scriptClose <:+: ['x'].map foldCase) ∧ byteLength (quotedFront bracketed) = 52 ∧
      (bracketed.find? QuotedAttribute.isLang).map (String.ofList ·.value) = some "ts" ∧
        scriptBlocks (quotedScript bracketed ['x']) =
          [⟨⟨40, "\" lang=\"ts\">x".toList⟩, none⟩] := by
  refine ⟨?_, ?_, ?_, ?_⟩ <;> decide +kernel

end LocaleAudit.Component
