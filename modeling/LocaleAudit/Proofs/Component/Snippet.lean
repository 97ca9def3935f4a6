import LocaleAudit.Component.Template
import LocaleAudit.Proofs.Component.Comment
import LocaleAudit.Proofs.Text.Slice

/-!
# LocaleAudit.Proofs.Component.Snippet

The snippets of a template: what stands in its interpolations and in the values of its attributes.
Every one is cut out of the template between two edges, since what delimits it, or else its own
first and last character, is no blank.

* `snippet_of_mem_partsOf` — all the code in the parts of a template is a snippet;
* `framed_of_snippet` — a snippet stands between two edges.
-/

namespace LocaleAudit.Component

open Text Slice

/-! ## frames -/

/-- A slice stands in another one between two edges. -/
def Framed (s code : Slice) : Prop :=
  ∃ front back, Took s front ⟨code.offset, code.text ++ back⟩ ∧ Edge front (code.text ++ back) ∧
    Edge (front ++ code.text) back

theorem Framed.of_behind {s r code : Slice} (h : Framed r code) (hr : r.Behind s) :
    Framed s code := by
  obtain ⟨front, back, htook, hfirst, hlast⟩ := h
  obtain ⟨cs, hcs⟩ := hr
  refine ⟨cs ++ front, back, hcs.trans htook, hfirst.append_left cs, ?_⟩
  rw [List.append_assoc]
  exact hlast.append_left cs

/-- What stands between a character and a mark is framed by them. -/
theorem framed_of_breakOn? {s r code rest : Slice} {front mark : List Char} {c d : Char}
    (hfront : Took s (front ++ [c]) r) (hc : c ≠ ' ') (hd : d ≠ ' ')
    (h : r.breakOn? (d :: mark) = some (code, rest)) : Framed s code := by
  obtain ⟨hoffset, hcode⟩ := took_of_breakOn? h
  have hr : r = ⟨code.offset, code.text ++ (d :: mark ++ rest.text)⟩ := by
    rw [hoffset, ← List.append_assoc, ← hcode.text]
  exact ⟨front ++ [c], d :: mark ++ rest.text, hr ▸ hfront, .behind front _ hc, .before _ _ hd⟩

/-- A beginning without blanks is framed by its own characters. -/
theorem framed_span {p : Char → Bool} (hp : p ' ' = false) {s : Slice}
    (hne : (s.span p).1.text ≠ []) : Framed s (s.span p).1 := by
  have hchar : ∀ c ∈ (s.span p).1.text, c ≠ ' ' := by
    rintro c hc rfl
    rw [all_span p s ' ' hc] at hp
    contradiction
  refine ⟨[], (s.span p).2.text, ⟨(text_span p s).symm, rfl⟩, ?_, ?_⟩
  · obtain ⟨c, cs, hcs⟩ := List.exists_cons_of_ne_nil hne
    rw [hcs, List.cons_append]
    exact .before [] _ (hchar c (hcs ▸ List.mem_cons_self))
  · obtain ⟨cs, c, hcs⟩ := (List.eq_nil_or_concat _).resolve_left hne
    rw [hcs, List.concat_eq_append, List.nil_append]
    exact .behind cs _ (hchar c (by simp [hcs]))

/-! ## interpolations -/

theorem framed_of_interpolation? {s body rest : Slice} (h : interpolation? s = some (body, rest)) :
    Framed s body ∧ rest.Behind s := by
  obtain ⟨r, hopening, hbody⟩ := Option.bind_eq_some_iff.1 h
  have hopening : Took s (['\x7b'] ++ ['\x7b']) r := strip?_eq_some_iff.1 hopening
  exact ⟨framed_of_breakOn? hopening (by decide) (by decide) hbody,
    (took_of_breakOn? hbody).2.left.trans hopening.left⟩

theorem framed_of_mem_interpolations {s code : Slice} (h : code ∈ interpolations s) :
    Framed s code := by
  fun_induction interpolations s with
  | case1 => contradiction
  | case2 s _ body rest hbody ih =>
      obtain ⟨hframed, hrest⟩ := framed_of_interpolation? hbody
      rcases List.mem_cons.1 h with rfl | h
      · exact hframed
      · exact (ih h).of_behind hrest
  | case3 s _ _ ih => exact (ih h).of_behind (behind_drop 1 s)

/-! ## attributes -/

theorem framed_of_attributeValue? {s value rest : Slice}
    (h : attributeValue? s = some (value, rest)) : Framed s value ∧ rest.Behind s := by
  have hquoted {quote : Char} {t : List Char} (hquote : quote ≠ ' ') (hs : s.text = quote :: t)
      (h : (s.drop 1).breakOn? [quote] = some (value, rest)) : Framed s value ∧ rest.Behind s :=
    have hfirst : Took s ([] ++ [quote]) (s.drop 1) := took_drop_one hs
    ⟨framed_of_breakOn? hfirst hquote hquote h,
      (took_of_breakOn? h).2.left.trans (behind_drop 1 s)⟩
  unfold attributeValue? at h
  split at h
  · exact hquoted (by decide) (by assumption) h
  · exact hquoted (by decide) (by assumption) h
  · dsimp only at h
    rw [Option.ite_none_left_eq_some, List.isEmpty_iff] at h
    obtain ⟨hne, heq⟩ := h
    obtain ⟨rfl, rfl⟩ := Prod.mk.inj (Option.some.inj heq)
    exact ⟨framed_span (by decide) hne, (took_span isBareValue s).left⟩

theorem framed_of_attribute? {s rest : Slice} {a : Attribute} (h : attribute? s = some (a, rest)) :
    (∀ value, a.value = some value → Framed s value) ∧ rest.Behind s := by
  have hname : ((s.span isBlank).2.span isNamePart).2.Behind s :=
    (took_span isNamePart _).left.trans (took_span isBlank s).left
  unfold attribute? at h
  dsimp only at h
  rw [Option.ite_none_left_eq_some] at h
  obtain ⟨-, h⟩ := h
  split at h
  · obtain ⟨rfl, rfl⟩ := Prod.mk.inj (Option.some.inj h)
    exact ⟨fun _ hvalue => by contradiction, hname⟩
  · rename_i behind hsign
    obtain ⟨⟨value, left⟩, hvalue, heq⟩ := Option.map_eq_some_iff.1 h
    obtain ⟨rfl, rfl⟩ := Prod.mk.inj heq
    obtain ⟨hframed, hleft⟩ := framed_of_attributeValue? hvalue
    have hbehind : (behind.skipWhile isBlank).Behind s :=
      (behind_skipWhile _ _).trans
        ((behind_of_strip? hsign).trans ((behind_skipWhile _ _).trans hname))
    refine ⟨fun v hv => ?_, hleft.trans hbehind⟩
    obtain rfl := Option.some.inj hv
    exact hframed.of_behind hbehind

theorem framed_of_attributes (s : Slice) :
    (∀ a ∈ (attributes s).1, ∀ value, a.value = some value → Framed s value) ∧
      (attributes s).2.Behind s := by
  fun_induction attributes s with
  | case1 s _ => exact ⟨fun _ h => by contradiction, .refl s⟩
  | case2 s a rest ha as left has ih =>
      rw [has] at ih
      obtain ⟨hframed, hrest⟩ := framed_of_attribute? ha
      refine ⟨fun a' ha' value hvalue => ?_, ih.2.trans hrest⟩
      rcases List.mem_cons.1 ha' with rfl | ha'
      · exact hframed value hvalue
      · exact (ih.1 a' ha' value hvalue).of_behind hrest

/-! ## start tags -/

theorem behind_of_tagEnd? {s rest : Slice} (h : tagEnd? s = some rest) : rest.Behind s := by
  have hslash : ((((s.skipWhile isBlank).strip? ['/']).getD (s.skipWhile isBlank))).Behind s := by
    cases hstrip : (s.skipWhile isBlank).strip? ['/'] with
    | none => exact behind_skipWhile isBlank s
    | some r => exact (behind_of_strip? hstrip).trans (behind_skipWhile isBlank s)
  exact (behind_of_strip? h).trans hslash

theorem framed_of_startTag? {s rest : Slice} {tag : Tag} (h : startTag? s = some (tag, rest)) :
    (∀ a ∈ tag.attributes, ∀ value, a.value = some value → Framed s value) ∧ rest.Behind s := by
  unfold startTag? at h
  split at h
  · dsimp only at h
    rw [Option.ite_none_right_eq_some] at h
    obtain ⟨left, hend, heq⟩ := Option.map_eq_some_iff.1 h.2
    obtain ⟨rfl, rfl⟩ := Prod.mk.inj heq
    have hname : ((s.drop 1).span isTagPart).2.Behind s :=
      (took_span _ _).left.trans (behind_drop 1 s)
    obtain ⟨hframed, hleft⟩ := framed_of_attributes ((s.drop 1).span isTagPart).2
    exact ⟨fun a ha value hvalue => (hframed a ha value hvalue).of_behind hname,
      (behind_of_tagEnd? hend).trans (hleft.trans hname)⟩
  · contradiction

theorem framed_of_mem_startTags {s value : Slice} {tag : Tag} {a : Attribute}
    (htag : tag ∈ startTags s) (ha : a ∈ tag.attributes) (hvalue : a.value = some value) :
    Framed s value := by
  fun_induction startTags s with
  | case1 => contradiction
  | case2 s _ first rest hfirst ih =>
      obtain ⟨hframed, hrest⟩ := framed_of_startTag? hfirst
      rcases List.mem_cons.1 htag with rfl | htag
      · exact hframed a ha value hvalue
      · exact (ih htag).of_behind hrest
  | case3 s _ _ ih => exact (ih htag).of_behind (behind_drop 1 s)

/-! ## snippets -/

/-- A part of a template that holds code. -/
inductive Snippet (template : Slice) : Slice → Prop
  /-- What stands in an interpolation. -/
  | interpolation {code : Slice} (h : code ∈ interpolations template) : Snippet template code
  /-- The value of an attribute. -/
  | value {tag : Tag} {a : Attribute} {code : Slice} (htag : tag ∈ startTags template)
      (ha : a ∈ tag.attributes) (hcode : a.value = some code) : Snippet template code
  /-- The source of a loop. -/
  | loop {tag : Tag} {a : Attribute} {code : Slice} (htag : tag ∈ startTags template)
      (ha : a ∈ tag.attributes) (hcode : a.value = some code) :
      Snippet template (loopSource code)

/-- The code in a part of a template. -/
def TemplatePart.code? : TemplatePart → Option Slice
  | expression code | statements code | keyExpression code _ | keyDirective code _ => some code
  | key _ _ => none

theorem code_of_keyAttributePart? {name : String} {place : Nat} {value code : Slice}
    {part : TemplatePart} (h : keyAttributePart? name place value = some part)
    (hcode : part.code? = some code) : code = value := by
  unfold keyAttributePart? at h
  split at h
  · obtain rfl := Option.some.inj h
    contradiction
  · split at h
    · obtain rfl := Option.some.inj h
      exact (Option.some.inj hcode).symm
    · contradiction

/-- Code in a directive is its value or the source of a loop in it. -/
theorem code_of_directivePart? {name : List Char} {place : Nat} {value code : Slice}
    {part : TemplatePart} (h : directivePart? name place value = some part)
    (hcode : part.code? = some code) : code = value ∨ code = loopSource value := by
  unfold directivePart? at h
  dsimp only at h
  split at h
  · obtain rfl := Option.some.inj h
    exact .inl (Option.some.inj hcode).symm
  · rw [Option.ite_none_left_eq_some] at h
    obtain ⟨-, h⟩ := h
    split at h
    · obtain rfl := Option.some.inj h
      exact .inr (Option.some.inj hcode).symm
    · split at h
      · obtain rfl := Option.some.inj h
        exact .inl (Option.some.inj hcode).symm
      · rw [Option.ite_none_right_eq_some] at h
        obtain rfl := Option.some.inj h.2
        exact .inl (Option.some.inj hcode).symm

/-- **The code in the parts of a template** is a snippet of it. -/
theorem snippet_of_mem_partsOf {template code : Slice} {part : TemplatePart}
    (h : part ∈ partsOf template) (hcode : part.code? = some code) : Snippet template code := by
  rcases List.mem_append.1 h with h | h
  · obtain ⟨body, hbody, rfl⟩ := List.mem_map.1 h
    obtain rfl := Option.some.inj hcode
    exact .interpolation hbody
  · obtain ⟨tag, htag, h⟩ := List.mem_flatMap.1 h
    obtain ⟨a, ha, h⟩ := List.mem_filterMap.1 h
    obtain ⟨value, hvalue, h⟩ := Option.bind_eq_some_iff.1 h
    dsimp only at h
    rw [Option.orElse_eq_orElse, Option.orElse_eq_or, Option.or_eq_some_iff] at h
    rcases h with hkey | ⟨-, hdirective⟩
    · rw [Option.ite_none_right_eq_some] at hkey
      obtain rfl := code_of_keyAttributePart? hkey.2 hcode
      exact .value htag ha hvalue
    · rcases code_of_directivePart? hdirective hcode with rfl | rfl
      · exact .value htag ha hvalue
      · exact .loop htag ha hvalue

/-- What is behind the separator in a framed slice is framed. -/
theorem framed_of_separator {s value before source : Slice} (mark : List Char) {c : Char}
    (hc : c ≠ ' ') (hn : c ≠ '\n') (h : value.breakOn? (mark ++ [c, ' ']) = some (before, source))
    (hvalue : Framed s value) : Framed s source := by
  obtain ⟨front, back, htook, -, hlast⟩ := hvalue
  obtain ⟨-, hsource⟩ := took_of_breakOn? h
  have hfront : front ++ (before.text ++ (mark ++ [c, ' '])) =
      front ++ (before.text ++ mark) ++ [c, ' '] := by simp only [List.append_assoc]
  refine ⟨front ++ (before.text ++ (mark ++ [c, ' '])), back,
    htook.trans (hsource.append back), ?_, ?_⟩
  · rw [hfront]
    exact .space _ _ hc hn
  · rwa [List.append_assoc, ← hsource.text]

/-- **A snippet** stands between two edges. -/
theorem framed_of_snippet {template code : Slice} (h : Snippet template code) :
    Framed template code := by
  cases h with
  | interpolation h => exact framed_of_mem_interpolations h
  | value htag ha hcode => exact framed_of_mem_startTags htag ha hcode
  | @loop tag a code htag ha hcode =>
      have hframed := framed_of_mem_startTags htag ha hcode
      unfold loopSource
      split
      · rename_i hin
        exact framed_of_separator [' ', 'i'] (by decide) (by decide) hin hframed
      · split
        · rename_i hof
          exact framed_of_separator [' ', 'o'] (by decide) (by decide) hof hframed
        · exact hframed

end LocaleAudit.Component
