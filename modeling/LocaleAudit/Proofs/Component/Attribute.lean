import LocaleAudit.Component.Markup
import LocaleAudit.Proofs.Text.Pattern
import LocaleAudit.Proofs.Text.Search

/-!
# LocaleAudit.Proofs.Component.Attribute

Attributes are read as they are written.  A start tag is read twice: once to find where its
attributes end, and then its attributes once more, from their text alone and without regard to the
blanks between them.  Both readings are told by what is written, and so they agree.

* `attribute?_of_took`, `exists_of_attribute?` — one attribute;
* `attributes_of_took`, `exists_of_attributes` — the attributes of a tag;
* `attributePattern_written` — the second reading;
* `attributePattern_attributes` — both readings agree.
-/

namespace LocaleAudit.Component

open Text Slice

/-! ## values -/

/-- A value as it is written. -/
inductive WrittenValue
  /-- A value in quotes. -/
  | quoted (quote : Char) (text : List Char) (isQuote : quote = '"' ∨ quote = '\'')
      (ends : quote ∉ text)
  /-- A value without quotes. -/
  | bare (text : List Char) (nonempty : text ≠ []) (plain : ∀ c ∈ text, isBareValue c = true)

namespace WrittenValue

/-- The quotes around a value. -/
def mark : WrittenValue → List Char
  | quoted quote _ _ _ => [quote]
  | bare _ _ _ => []

/-- A value without its quotes. -/
def text : WrittenValue → List Char
  | quoted _ text _ _ => text
  | bare text _ _ => text

/-- A value with its quotes. -/
def written (v : WrittenValue) : List Char := v.mark ++ (v.text ++ v.mark)

/-- A value ends in front of a text. -/
def Ends (v : WrittenValue) (t : List Char) : Prop := v.mark = [] → Stops isBareValue t

end WrittenValue

theorem attributeValue?_of_took {v : WrittenValue} {s rest : Slice} (h : Took s v.written rest)
    (hends : v.Ends rest.text) :
    attributeValue? s = some (⟨s.offset + byteLength v.mark, v.text⟩, rest) := by
  cases v with
  | quoted quote text isQuote ends =>
      have hbehind : Took (s.drop 1) (text ++ [quote]) rest := h.behind
      have hbreak := breakOn?_of_not_mem hbehind ends
      have hoffset : (s.drop 1).offset = s.offset + byteLength [quote] :=
        (took_drop_one (h.text)).offset
      rw [hoffset] at hbreak
      have htext : s.text = quote :: (text ++ [quote] ++ rest.text) := h.text
      rw [attributeValue?, htext]
      rcases isQuote with rfl | rfl
      · exact hbreak
      · exact hbreak
  | bare text nonempty plain =>
      have hwritten : Took s text rest := by
        simpa [WrittenValue.written, WrittenValue.mark, WrittenValue.text] using h
      have hspan := span_eq_of_took hwritten plain (hends rfl)
      have hhead : ∀ c ∈ s.text.head?, isBareValue c = true := by
        obtain ⟨c, cs, rfl⟩ := List.exists_cons_of_ne_nil nonempty
        intro d hd
        rw [hwritten.text] at hd
        obtain rfl : c = d := Option.some.inj hd
        exact plain c List.mem_cons_self
      unfold attributeValue?
      split
      · rename_i htext
        rw [htext] at hhead
        exact absurd (hhead '"' rfl) (by decide)
      · rename_i htext
        rw [htext] at hhead
        exact absurd (hhead '\'' rfl) (by decide)
      · rw [hspan]
        dsimp only
        rw [if_neg (by simpa using nonempty)]
        rfl

theorem exists_of_attributeValue? {s value rest : Slice}
    (h : attributeValue? s = some (value, rest)) :
    ∃ v : WrittenValue, Took s v.written rest ∧
      value = ⟨s.offset + byteLength v.mark, v.text⟩ ∧ v.Ends rest.text := by
  have hquoted {quote : Char} {t : List Char} (hquote : quote = '"' ∨ quote = '\'')
      (hs : s.text = quote :: t) (h : (s.drop 1).breakOn? [quote] = some (value, rest)) :
      ∃ v : WrittenValue, Took s v.written rest ∧
        value = ⟨s.offset + byteLength v.mark, v.text⟩ ∧ v.Ends rest.text := by
    obtain ⟨hoffset, htook⟩ := took_of_breakOn? h
    have hfirst := took_drop_one hs
    refine ⟨.quoted quote value.text hquote (not_mem_of_breakOn? h), hfirst.trans htook, ?_,
      fun hmark => by contradiction⟩
    rw [hfirst.offset] at hoffset
    exact congrArg (fun o => Slice.mk o value.text) hoffset
  unfold attributeValue? at h
  split at h
  · exact hquoted (.inl rfl) (by assumption) h
  · exact hquoted (.inr rfl) (by assumption) h
  · dsimp only at h
    rw [Option.ite_none_left_eq_some, List.isEmpty_iff] at h
    obtain ⟨hne, heq⟩ := h
    obtain ⟨rfl, rfl⟩ := Prod.mk.inj (Option.some.inj heq)
    refine ⟨.bare _ hne (all_span isBareValue s), ?_, rfl, fun _ => ?_⟩
    · simpa [WrittenValue.written, WrittenValue.mark, WrittenValue.text] using
        took_span isBareValue s
    · exact stops_span isBareValue s

/-! ## attributes -/

/-- A value with an equals sign in front of it, and blanks around the sign. -/
structure Assignment where
  before : List Char
  behind : List Char
  value : WrittenValue
  blankBefore : ∀ c ∈ before, isBlank c = true
  blankBehind : ∀ c ∈ behind, isBlank c = true

namespace Assignment

/-- What stands in front of a value. -/
def sign (g : Assignment) : List Char := g.before ++ '=' :: g.behind

/-- An assignment as it is written. -/
def text (g : Assignment) : List Char := g.sign ++ g.value.written

end Assignment

/-- An attribute as it is written: blanks, a name, and perhaps a value. -/
structure WrittenAttribute where
  gap : List Char
  name : List Char
  assigned : Option Assignment
  apart : gap ≠ []
  blank : ∀ c ∈ gap, isBlank c = true
  nonempty : name ≠ []
  named : ∀ c ∈ name, isNamePart c = true

namespace WrittenAttribute

/-- What is written behind the name. -/
def tail (a : WrittenAttribute) : List Char := (a.assigned.map Assignment.text).getD []

/-- An attribute with the blanks in front of it. -/
def text (a : WrittenAttribute) : List Char := a.gap ++ (a.name ++ a.tail)

/-- An attribute whose blanks start at an offset: where its name and the text of its value stand. -/
def placed (o : Nat) (a : WrittenAttribute) : Attribute :=
  ⟨⟨o + byteLength a.gap, a.name⟩, a.assigned.map fun g =>
    ⟨o + byteLength (a.gap ++ a.name ++ g.sign ++ g.value.mark), g.value.text⟩⟩

/-- An attribute ends in front of a text. -/
def Ends (a : WrittenAttribute) (t : List Char) : Prop :=
  match a.assigned with
  | none => Stops isNamePart t ∧ Stops (· == '=') (t.dropWhile isBlank)
  | some g => g.value.Ends t

end WrittenAttribute

/-- A blank is no part of a name, and of no value without quotes. -/
theorem not_part_of_isBlank {c : Char} (h : isBlank c = true) :
    isNamePart c = false ∧ isBareValue c = false := by
  simp [isNamePart, isBareValue, h]

theorem stops_blanks_append {p : Char → Bool} {cs t : List Char}
    (hcs : ∀ c ∈ cs, isBlank c = true) (hp : ∀ c, isBlank c = true → p c = false)
    (ht : Stops p t) : Stops p (cs ++ t) := by
  cases cs with
  | nil => exact ht
  | cons c cs => exact stops_cons.2 (hp c (hcs c List.mem_cons_self))

/-- The slice behind blanks is the one behind what is written of them. -/
theorem skipBlanks_eq {cs : List Char} {s rest : Slice} (htook : Took s cs rest)
    (hcs : ∀ c ∈ cs, isBlank c = true) (hrest : Stops isBlank rest.text) :
    s.skipWhile isBlank = rest := by
  rw [skipWhile, span_eq_of_took htook hcs hrest]

theorem stops_written (v : WrittenValue) (t : List Char) : Stops isBlank (v.written ++ t) := by
  cases v with
  | quoted quote text isQuote ends =>
      rcases isQuote with rfl | rfl <;> exact stops_cons.2 (by decide)
  | bare text nonempty plain =>
      obtain ⟨c, cs, rfl⟩ := List.exists_cons_of_ne_nil nonempty
      have hc := plain c List.mem_cons_self
      refine stops_cons.2 ?_
      cases hblank : isBlank c with
      | false => rfl
      | true =>
          rw [(not_part_of_isBlank hblank).2] at hc
          contradiction

/-- No equals sign is found where none stands behind the blanks. -/
theorem stripSign_eq_none {s : Slice} (h : Stops (· == '=') (s.text.dropWhile isBlank)) :
    (s.skipWhile isBlank).strip? ['='] = none := by
  have htext : (s.skipWhile isBlank).text = s.text.dropWhile isBlank := rfl
  rw [strip?, Option.map_eq_none_iff, behind?_eq_none_iff, htext]
  intro hprefix
  obtain ⟨t, ht⟩ := hprefix
  rw [← ht] at h
  exact absurd (stops_cons.1 h) (by decide)

section reading

variable {a : WrittenAttribute} {s rest : Slice}

theorem WrittenAttribute.stops_name (a : WrittenAttribute) (t : List Char) :
    Stops isBlank (a.name ++ t) := by
  obtain ⟨c, cs, hname⟩ := List.exists_cons_of_ne_nil a.nonempty
  have hc := a.named c (by rw [hname]; exact List.mem_cons_self)
  rw [hname]
  refine stops_cons.2 ?_
  cases hblank : isBlank c with
  | false => rfl
  | true =>
      rw [(not_part_of_isBlank hblank).1] at hc
      contradiction

theorem WrittenAttribute.stops_tail {t : List Char} (h : a.Ends t) :
    Stops isNamePart (a.tail ++ t) := by
  unfold WrittenAttribute.Ends at h
  unfold WrittenAttribute.tail
  cases hassigned : a.assigned with
  | none =>
      rw [hassigned] at h
      exact h.1
  | some g =>
      have htext : g.text ++ t = g.before ++ '=' :: (g.behind ++ g.value.written ++ t) := by
        simp [Assignment.text, Assignment.sign]
      change Stops isNamePart (g.text ++ t)
      rw [htext]
      exact stops_blanks_append g.blankBefore (fun c hc => (not_part_of_isBlank hc).1)
        (stops_cons.2 (by decide))

/-- **An attribute is read** as it is written. -/
theorem attribute?_of_took (h : Took s a.text rest) (hends : a.Ends rest.text) :
    attribute? s = some (a.placed s.offset, rest) := by
  obtain ⟨s₁, hgap, hcore, -⟩ := h.split
  obtain ⟨s₂, hname, htail, -⟩ := hcore.split
  have hspan : s.span isBlank = (⟨s.offset, a.gap⟩, s₁) :=
    span_eq_of_took hgap a.blank (by rw [hname.text]; exact a.stops_name _)
  have hspan' : s₁.span isNamePart = (⟨s₁.offset, a.name⟩, s₂) :=
    span_eq_of_took hname a.named (by rw [htail.text]; exact a.stops_tail hends)
  have hne : (a.gap.isEmpty || a.name.isEmpty) = false := by
    simp [a.apart, a.nonempty]
  rw [attribute?, hspan]
  dsimp only
  rw [hspan']
  dsimp only
  rw [hne, if_neg Bool.false_ne_true, hgap.offset]
  unfold WrittenAttribute.Ends at hends
  unfold WrittenAttribute.tail at htail
  unfold WrittenAttribute.placed
  cases hassigned : a.assigned with
  | none =>
      rw [hassigned] at hends htail
      obtain rfl : s₂ = rest := (took_nil s₂).eq htail
      rw [stripSign_eq_none hends.2]
      rfl
  | some g =>
      rw [hassigned] at hends htail
      have htext : Took s₂ (g.before ++ ('=' :: (g.behind ++ g.value.written))) rest := by
        simpa [Assignment.text, Assignment.sign] using htail
      obtain ⟨s₃, hbefore, hsign, -⟩ := htext.split
      have hsign : Took s₃ (['='] ++ (g.behind ++ g.value.written)) rest := hsign
      obtain ⟨s₄, hequals, hbehind, -⟩ := hsign.split
      obtain ⟨s₅, hblanks, hvalue, -⟩ := hbehind.split
      have hskip : s₂.skipWhile isBlank = s₃ :=
        skipBlanks_eq hbefore g.blankBefore (by rw [hequals.text]; exact stops_cons.2 (by decide))
      have hskip' : s₄.skipWhile isBlank = s₅ :=
        skipBlanks_eq hblanks g.blankBehind (by rw [hvalue.text]; exact stops_written g.value _)
      rw [hskip, strip?_eq_some_iff.2 hequals]
      dsimp only
      rw [hskip', attributeValue?_of_took hvalue hends]
      have hoffset : s₅.offset + byteLength g.value.mark =
          s.offset + byteLength (a.gap ++ a.name ++ g.sign ++ g.value.mark) := by
        rw [hblanks.offset, hequals.offset, hbefore.offset, hname.offset, hgap.offset]
        simp only [Assignment.sign, byteLength_append, byteLength_cons, byteLength_nil]
        omega
      rw [hoffset]
      rfl

/-- **What is read as an attribute** is written like one. -/
theorem exists_of_attribute? {b : Attribute} (h : attribute? s = some (b, rest)) :
    ∃ a : WrittenAttribute, Took s a.text rest ∧ b = a.placed s.offset := by
  have hgap := took_span isBlank s
  have hname := took_span isNamePart (s.span isBlank).2
  unfold attribute? at h
  dsimp only at h
  rw [Option.ite_none_left_eq_some, Bool.or_eq_true, not_or, List.isEmpty_iff,
    List.isEmpty_iff] at h
  obtain ⟨⟨hapart, hnonempty⟩, h⟩ := h
  have hboth := hgap.trans hname
  split at h
  · obtain ⟨rfl, rfl⟩ := Prod.mk.inj (Option.some.inj h)
    refine ⟨⟨_, _, none, hapart, all_span isBlank s, hnonempty, all_span isNamePart _⟩, ?_, ?_⟩
    · simpa [WrittenAttribute.text, WrittenAttribute.tail] using hboth
    · rw [WrittenAttribute.placed, ← hgap.offset]
      rfl
  · rename_i behind hsign
    obtain ⟨⟨value, left⟩, hvalue, heq⟩ := Option.map_eq_some_iff.1 h
    obtain ⟨rfl, rfl⟩ := Prod.mk.inj heq
    obtain ⟨v, htook, rfl, -⟩ := exists_of_attributeValue? hvalue
    have hbefore := took_span isBlank ((s.span isBlank).2.span isNamePart).2
    have hequals := strip?_eq_some_iff.1 hsign
    have hbehind := took_span isBlank behind
    let g : Assignment := ⟨_, _, v, all_span isBlank ((s.span isBlank).2.span isNamePart).2,
      all_span isBlank behind⟩
    have hwhole := hboth.trans (hbefore.trans (hequals.trans (hbehind.trans htook)))
    refine ⟨⟨_, _, some g, hapart, all_span isBlank s, hnonempty, all_span isNamePart _⟩, ?_, ?_⟩
    · simpa [WrittenAttribute.text, WrittenAttribute.tail, Assignment.text, Assignment.sign, g]
        using hwhole
    · have hplace := (hboth.trans (hbefore.trans (hequals.trans hbehind))).offset
      have hoffset : (behind.skipWhile isBlank).offset + byteLength v.mark =
          s.offset + byteLength ((s.span isBlank).1.text ++
            ((s.span isBlank).2.span isNamePart).1.text ++ g.sign ++ v.mark) := by
        rw [show (behind.skipWhile isBlank).offset = _ from hplace]
        simp only [Assignment.sign, g, byteLength_append, byteLength_cons, byteLength_nil]
        omega
      rw [hoffset]
      rfl

end reading

/-! ## the attributes of a tag -/

/-- Attributes as they are written, in a row. -/
def attributesText (as : List WrittenAttribute) : List Char := as.flatMap WrittenAttribute.text

/-- The attributes that are written in a row from an offset on. -/
def placedFrom (o : Nat) (as : List WrittenAttribute) : List Attribute :=
  as.mapIdx fun i a => a.placed (o + byteLength (attributesText (as.take i)))

/-- A slice stands in a text where its offset says. -/
def Stands (text : List Char) (s : Slice) : Prop :=
  ∃ before after, text = before ++ s.text ++ after ∧ s.offset = byteLength before

/-- The name and the value of an attribute stand where it is written. -/
theorem WrittenAttribute.stands (a : WrittenAttribute) (before after : List Char) :
    Stands (before ++ a.text ++ after) (a.placed (byteLength before)).name ∧
      ∀ v ∈ (a.placed (byteLength before)).value, Stands (before ++ a.text ++ after) v := by
  constructor
  · refine ⟨before ++ a.gap, a.tail ++ after, ?_, (byteLength_append before a.gap).symm⟩
    simp only [WrittenAttribute.text, WrittenAttribute.placed, List.append_assoc]
  · rintro v hv
    obtain ⟨g, hg, rfl⟩ := Option.map_eq_some_iff.1 hv
    refine ⟨before ++ (a.gap ++ a.name ++ g.sign ++ g.value.mark), g.value.mark ++ after, ?_,
      (byteLength_append before _).symm⟩
    simp only [WrittenAttribute.text, WrittenAttribute.tail, hg, Option.map_some, Option.getD_some,
      Assignment.text, WrittenValue.written, List.append_assoc]

theorem attributesText_cons (a : WrittenAttribute) (as : List WrittenAttribute) :
    attributesText (a :: as) = a.text ++ attributesText as := List.flatMap_cons

/-- Attributes in a row stand where they are written. -/
theorem stands_of_mem_placedFrom {as : List WrittenAttribute} {b : Attribute}
    {before after : List Char} (h : b ∈ placedFrom (byteLength before) as) :
    Stands (before ++ attributesText as ++ after) b.name ∧
      ∀ v ∈ b.value, Stands (before ++ attributesText as ++ after) v := by
  obtain ⟨i, hi, rfl⟩ := List.mem_mapIdx.1 h
  have htext : before ++ attributesText as ++ after =
      before ++ attributesText (as.take i) ++ as[i].text ++
        (attributesText (as.drop (i + 1)) ++ after) := by
    rw [attributesText, flatMap_eq_of_lt WrittenAttribute.text hi]
    simp only [attributesText, List.append_assoc]
  rw [htext, ← byteLength_append]
  exact as[i].stands _ _

theorem placedFrom_cons (o : Nat) (a : WrittenAttribute) (as : List WrittenAttribute) :
    placedFrom o (a :: as) = a.placed o :: placedFrom (o + byteLength a.text) as := by
  rw [placedFrom, List.mapIdx_cons]
  congr 1
  refine List.mapIdx_eq_mapIdx_iff.2 fun i hi => ?_
  rw [List.take_succ_cons, attributesText_cons, byteLength_append, Nat.add_assoc]

/-- Every attribute ends where nothing follows. -/
theorem WrittenAttribute.ends_nil (a : WrittenAttribute) : a.Ends [] := by
  unfold WrittenAttribute.Ends
  cases a.assigned with
  | none => exact ⟨stops_nil _, stops_nil _⟩
  | some g => exact fun _ => stops_nil _

/-- Every attribute ends where blanks follow, and no equals sign behind them. -/
theorem WrittenAttribute.ends_append (a : WrittenAttribute) {gap t : List Char} (hne : gap ≠ [])
    (hgap : ∀ c ∈ gap, isBlank c = true) (ht : Stops (· == '=') (t.dropWhile isBlank)) :
    a.Ends (gap ++ t) := by
  obtain ⟨c, cs, rfl⟩ := List.exists_cons_of_ne_nil hne
  have hc := not_part_of_isBlank (hgap c List.mem_cons_self)
  unfold WrittenAttribute.Ends
  cases a.assigned with
  | none =>
      refine ⟨stops_cons.2 hc.1, ?_⟩
      rwa [List.dropWhile_append_of_pos hgap]
  | some g => exact fun _ => stops_cons.2 hc.2

/-- Every attribute ends where another one follows. -/
theorem WrittenAttribute.ends_text (a b : WrittenAttribute) (t : List Char) :
    a.Ends (b.text ++ t) := by
  rw [WrittenAttribute.text, List.append_assoc, List.append_assoc]
  refine a.ends_append b.apart b.blank ?_
  obtain ⟨c, cs, hname⟩ := List.exists_cons_of_ne_nil b.nonempty
  have hstops := b.stops_name (b.tail ++ t)
  have hc := b.named c (by rw [hname]; exact List.mem_cons_self)
  rw [hname, List.cons_append, stops_cons] at hstops
  rw [hname, List.cons_append, List.dropWhile_cons_of_neg (by simp [hstops]), stops_cons,
    beq_eq_false_iff_ne]
  rintro rfl
  exact absurd hc (by decide)

theorem attributes_of_some {s rest : Slice} {a : Attribute} (h : attribute? s = some (a, rest)) :
    attributes s = (a :: (attributes rest).1, (attributes rest).2) := by
  rw [attributes]
  split
  · rename_i h'
    rw [h] at h'
    contradiction
  · rename_i h'
    obtain ⟨rfl, rfl⟩ := Prod.mk.inj (Option.some.inj (h'.symm.trans h))
    rfl

theorem attributes_of_none {s : Slice} (h : attribute? s = none) : attributes s = ([], s) := by
  rw [attributes]
  split
  · rfl
  · rename_i h'
    rw [h] at h'
    contradiction

/-- **The attributes of a tag are read** as they are written, up to where no more can be read. -/
theorem attributes_of_took {as : List WrittenAttribute} {s rest : Slice}
    (h : Took s (attributesText as) rest) (hends : ∀ a ∈ as.getLast?, a.Ends rest.text)
    (hrest : attribute? rest = none) : attributes s = (placedFrom s.offset as, rest) := by
  induction as generalizing s with
  | nil =>
      obtain rfl : s = rest := (took_nil s).eq h
      exact attributes_of_none hrest
  | cons a as ih =>
      rw [attributesText_cons] at h
      obtain ⟨s', hfirst, hothers, -⟩ := h.split
      have ha : a.Ends s'.text := by
        rw [hothers.text]
        cases as with
        | nil => exact hends a rfl
        | cons b as =>
            rw [attributesText_cons, List.append_assoc]
            exact a.ends_text b _
      have hothers' := ih hothers fun b hb => hends b (by
        cases as with
        | nil => contradiction
        | cons c as => exact hb)
      rw [attributes_of_some (attribute?_of_took hfirst ha), hothers', placedFrom_cons,
        hfirst.offset]

/-- **What is read as attributes** is written like them. -/
theorem exists_of_attributes (s : Slice) :
    ∃ as, Took s (attributesText as) (attributes s).2 ∧
      (attributes s).1 = placedFrom s.offset as := by
  fun_induction attributes s with
  | case1 s _ => exact ⟨[], took_nil s, rfl⟩
  | case2 s b rest hb found left hfound ih =>
      rw [hfound] at ih
      obtain ⟨as, htook, hplaced⟩ := ih
      obtain ⟨a, ha, rfl⟩ := exists_of_attribute? hb
      refine ⟨a :: as, ?_, ?_⟩
      · rw [attributesText_cons]
        exact ha.trans htook
      · rw [placedFrom_cons, ← ha.offset]
        exact congrArg (a.placed s.offset :: ·) hplaced

/-! ## the second reading -/

/-- An attribute at the start of a slice, and what follows it. Where no value can be read behind an
equals sign the name alone is the attribute. -/
def attributeHere? (s : Slice) : Option (Attribute × Slice) :=
  let (name, rest) := s.span isNamePart
  if name.text.isEmpty then none
  else match (rest.skipWhile isBlank).strip? ['='] with
    | none => some (⟨name, none⟩, rest)
    | some behind => match attributeValue? (behind.skipWhile isBlank) with
      | none => some (⟨name, none⟩, rest)
      | some (value, rest) => some (⟨name, some value⟩, rest)

theorem length_of_attributeHere? {s rest : Slice} {a : Attribute}
    (h : attributeHere? s = some (a, rest)) : rest.text.length < s.text.length := by
  have hname := length_span isNamePart s
  unfold attributeHere? at h
  dsimp only at h
  rw [Option.ite_none_left_eq_some, List.isEmpty_iff, ← ne_eq, ← List.length_pos_iff] at h
  obtain ⟨hpos, h⟩ := h
  have hshort : ∀ t : Slice, t.text.length ≤ (s.span isNamePart).2.text.length →
      t.text.length < s.text.length := by omega
  split at h
  · obtain ⟨-, rfl⟩ := Prod.mk.inj (Option.some.inj h)
    exact hshort _ (Nat.le_refl _)
  · rename_i behind hsign
    split at h
    · obtain ⟨-, rfl⟩ := Prod.mk.inj (Option.some.inj h)
      exact hshort _ (Nat.le_refl _)
    · rename_i value left hvalue
      obtain ⟨-, rfl⟩ := Prod.mk.inj (Option.some.inj h)
      have hleft := length_of_attributeValue? hvalue
      have hskip := length_skipWhile_le isBlank behind
      have hstrip := length_of_strip? hsign
      have hskip' := length_skipWhile_le isBlank (s.span isNamePart).2
      exact hshort left (by simp only [List.length_cons] at hstrip; omega)

/-- An attribute, wherever it stands. -/
def attributePattern : Pattern Attribute := ⟨attributeHere?, length_of_attributeHere?⟩

/-- Behind its blanks an attribute is read the same. -/
theorem attributeHere?_of_attribute? {s rest : Slice} {a : Attribute}
    (h : attribute? s = some (a, rest)) :
    attributeHere? (s.skipWhile isBlank) = some (a, rest) := by
  unfold attribute? at h
  dsimp only at h
  rw [Option.ite_none_left_eq_some, Bool.or_eq_true, not_or] at h
  obtain ⟨⟨-, hname⟩, h⟩ := h
  rw [skipWhile, attributeHere?]
  dsimp only
  rw [if_neg hname]
  cases hsign : (((s.span isBlank).2.span isNamePart).2.skipWhile isBlank).strip? ['='] with
  | none =>
      rw [hsign] at h
      exact h
  | some behind =>
      rw [hsign] at h
      obtain ⟨⟨value, left⟩, hvalue, heq⟩ := Option.map_eq_some_iff.1 h
      dsimp only
      rw [hvalue]
      exact congrArg some heq

/-- Blanks are passed over. -/
theorem attributePattern_blanks {cs : List Char} {s rest : Slice} (h : Took s cs rest)
    (hcs : ∀ c ∈ cs, isBlank c = true) : attributePattern.all s = attributePattern.all rest := by
  refine Pattern.all_of_took h fun front back t hsplit hne ht => ?_
  have hstops : Stops isNamePart t.text := by
    obtain ⟨c, back, rfl⟩ := List.exists_cons_of_ne_nil hne
    rw [ht.text]
    refine stops_cons.2 (not_part_of_isBlank (hcs c ?_)).1
    rw [hsplit]
    exact List.mem_append_right front List.mem_cons_self
  have hspan := span_eq_of_took (took_nil t) (by simp) hstops
  change attributeHere? t = none
  rw [attributeHere?, hspan]
  rfl

/-- **The second reading** of the attributes of a tag finds each of them once more. -/
theorem attributePattern_of_took {as : List WrittenAttribute} {s rest : Slice}
    (h : Took s (attributesText as) rest) (hrest : rest.text = []) :
    attributePattern.all s = placedFrom s.offset as := by
  induction as generalizing s with
  | nil =>
      obtain rfl : s = rest := (took_nil s).eq h
      exact Pattern.all_nil hrest
  | cons a as ih =>
      rw [attributesText_cons] at h
      obtain ⟨s', hfirst, hothers, -⟩ := h.split
      have ha : a.Ends s'.text := by
        rw [hothers.text, hrest, List.append_nil]
        cases as with
        | nil => exact a.ends_nil
        | cons b as =>
            rw [attributesText_cons]
            exact a.ends_text b _
      have hhere : attributePattern.read? (s.skipWhile isBlank) = some _ :=
        attributeHere?_of_attribute? (attribute?_of_took hfirst ha)
      rw [attributePattern_blanks (took_span isBlank s) (all_span isBlank s), placedFrom_cons,
        ← hfirst.offset, ← ih hothers]
      exact Pattern.all_of_some hhere

theorem attributePattern_written (o : Nat) (as : List WrittenAttribute) :
    attributePattern.all ⟨o, attributesText as⟩ = placedFrom o as := by
  have htook : Took ⟨o, attributesText as⟩ (attributesText as)
      ⟨o + byteLength (attributesText as), []⟩ := ⟨(List.append_nil _).symm, rfl⟩
  exact attributePattern_of_took htook rfl

/-- Both readings of the attributes of a tag agree. -/
theorem attributePattern_attributes (s : Slice) :
    attributePattern.all ⟨s.offset, s.text.take (s.text.length - (attributes s).2.text.length)⟩ =
      (attributes s).1 := by
  obtain ⟨as, htook, hplaced⟩ := exists_of_attributes s
  rw [htook.take_text, hplaced, attributePattern_written]

end LocaleAudit.Component
