import LocaleAudit.Proofs.Text.Slice

/-!
# LocaleAudit.Proofs.Text.Search

Where a search ends.  A search goes from place to place until an ending can be read; here it is told
by the one place where it stops.

* `breakBefore?_append`, `exists_of_breakBefore?` — the first place with an ending;
* `breakAt?_of_took` — the slices in front of that place and behind the ending;
* `breakText?_eq_none_iff` — a search for a mark fails where the mark does not occur.
-/

namespace LocaleAudit.Text.Slice

section endings

variable {ending? : List Char → Option (List Char)}

/-- **A search ends** where an ending can be read and none can be read in front of it. -/
theorem breakBefore?_append {before tail rest : List Char} (hending : ending? tail = some rest)
    (hfirst : ∀ front back, before = front ++ back → back ≠ [] → ending? (back ++ tail) = none) :
    breakBefore? ending? (before ++ tail) = some (before, rest) := by
  induction before with
  | nil =>
      rw [List.nil_append]
      cases tail with
      | nil => rw [breakBefore?, hending, Option.map_some]
      | cons c cs => rw [breakBefore?, hending]
  | cons c cs ih =>
      have hhere : ending? (c :: (cs ++ tail)) = none :=
        hfirst [] (c :: cs) rfl (List.cons_ne_nil c cs)
      have hrest := ih fun front back h hne => hfirst (c :: front) back (by rw [h]; rfl) hne
      rw [List.cons_append, breakBefore?, hhere, hrest, Option.map_some]

theorem exists_of_breakBefore? {text before rest : List Char}
    (h : breakBefore? ending? text = some (before, rest)) :
    ∃ tail, text = before ++ tail ∧ ending? tail = some rest ∧
      ∀ front back, before = front ++ back → back ≠ [] → ending? (back ++ tail) = none := by
  induction text generalizing before with
  | nil =>
      obtain ⟨r, hr, heq⟩ := Option.map_eq_some_iff.1 h
      obtain ⟨rfl, rfl⟩ := Prod.mk.inj heq
      exact ⟨[], rfl, hr, fun front back hnil hne =>
        absurd (List.append_eq_nil_iff.1 hnil.symm).2 hne⟩
  | cons c cs ih =>
      rw [breakBefore?] at h
      split at h
      · rename_i r hr
        obtain ⟨rfl, rfl⟩ := Prod.mk.inj (Option.some.inj h)
        exact ⟨c :: cs, rfl, hr, fun front back hnil hne =>
          absurd (List.append_eq_nil_iff.1 hnil.symm).2 hne⟩
      · rename_i hnone
        obtain ⟨⟨before', r⟩, hbreak, heq⟩ := Option.map_eq_some_iff.1 h
        obtain ⟨rfl, rfl⟩ := Prod.mk.inj heq
        obtain ⟨tail, rfl, htail, hfirst⟩ := ih hbreak
        refine ⟨tail, rfl, htail, fun front back hsplit hne => ?_⟩
        cases front with
        | nil =>
            rw [List.nil_append] at hsplit
            exact hsplit ▸ hnone
        | cons d front => exact hfirst front back (List.cons.inj hsplit).2 hne

theorem breakBefore?_eq_none_iff {text : List Char} :
    breakBefore? ending? text = none ↔
      ∀ front back, text = front ++ back → ending? back = none := by
  constructor
  · rintro h front back rfl
    induction front with
    | nil =>
        cases back with
        | nil => exact Option.map_eq_none_iff.1 h
        | cons c cs =>
            rw [List.nil_append, breakBefore?] at h
            split at h
            · contradiction
            · assumption
    | cons c front ih =>
        rw [List.cons_append, breakBefore?] at h
        split at h
        · contradiction
        · exact ih (Option.map_eq_none_iff.1 h)
  · intro h
    rw [Option.eq_none_iff_forall_ne_some]
    rintro ⟨before, rest⟩ hbreak
    obtain ⟨tail, htext, htail, -⟩ := exists_of_breakBefore? hbreak
    rw [h before tail htext] at htail
    contradiction

/-- A slice is cut at its first ending. -/
theorem breakAt?_of_took {s rest : Slice} {before close : List Char}
    (htook : Took s (before ++ close) rest)
    (hending : ending? (close ++ rest.text) = some rest.text)
    (hfirst : ∀ front back, before = front ++ back → back ≠ [] →
      ending? (back ++ (close ++ rest.text)) = none) :
    s.breakAt? ending? = some (⟨s.offset, before⟩, rest) := by
  have hbreak : breakBefore? ending? s.text = some (before, rest.text) := by
    rw [htook.text, List.append_assoc]
    exact breakBefore?_append hending hfirst
  have hoffset : s.offset + (byteLength s.text - byteLength rest.text) = rest.offset := by
    rw [htook.offset, htook.text, byteLength_append]
    omega
  rw [breakAt?, hbreak, Option.map_some]
  dsimp only
  rw [hoffset]

end endings

/-! ## marks -/

theorem behind?_eq_none_iff {mark text : List Char} :
    behind? mark text = none ↔ ¬ mark <+: text := by
  rw [Option.eq_none_iff_forall_ne_some, List.prefix_iff_exists_append_eq, not_exists]
  exact forall_congr' fun rest => not_congr behind?_eq_some_iff

/-- A mark is not found where it does not occur. -/
theorem breakText?_eq_none_iff {mark text : List Char} :
    breakText? mark text = none ↔ ¬ mark <:+: text := by
  rw [breakText?, breakBefore?_eq_none_iff]
  constructor
  · rintro h ⟨front, back, rfl⟩
    rw [List.append_assoc] at h
    exact behind?_eq_none_iff.1 (h front _ rfl) (List.prefix_append mark back)
  · rintro h front back rfl
    refine behind?_eq_none_iff.2 fun hprefix => h ?_
    exact hprefix.isInfix.trans (List.suffix_append front back).isInfix

theorem breakOn?_eq_none_iff {mark : List Char} {s : Slice} :
    s.breakOn? mark = none ↔ ¬ mark <:+: s.text := by
  rw [← breakText?_eq_none_iff]
  exact Option.map_eq_none_iff

/-- What is found is the first occurrence of a mark. -/
theorem prefix_of_breakText? {mark text before rest front back : List Char}
    (h : breakText? mark text = some (before, rest)) (hfront : text = front ++ mark ++ back) :
    before <+: front := by
  obtain ⟨tail, rfl, -, hfirst⟩ := exists_of_breakBefore? h
  rw [List.append_assoc] at hfront
  rcases List.append_eq_append_iff.1 hfront with ⟨more, hmore, -⟩ | ⟨more, rfl, htail⟩
  · exact ⟨more, hmore.symm⟩
  · cases more with
    | nil => exact ⟨[], by rw [List.append_nil, List.append_nil]⟩
    | cons c more =>
        have hnone := hfirst front (c :: more) rfl (List.cons_ne_nil c more)
        rw [← htail] at hnone
        exact absurd (List.prefix_append mark back) (behind?_eq_none_iff.1 hnone)

/-- A slice is cut at the first of some characters. -/
theorem breakOn?_of_not_mem {s rest : Slice} {before : List Char} {c : Char}
    (htook : Took s (before ++ [c]) rest) (hc : c ∉ before) :
    s.breakOn? [c] = some (⟨s.offset, before⟩, rest) := by
  refine breakAt?_of_took htook (behind?_eq_some_iff.2 rfl) fun front back hsplit hne => ?_
  obtain ⟨d, back, rfl⟩ := List.exists_cons_of_ne_nil hne
  refine behind?_eq_none_iff.2 fun hprefix => hc ?_
  obtain rfl : c = d := (List.cons_prefix_cons.1 hprefix).1
  rw [hsplit]
  exact List.mem_append_right front List.mem_cons_self

theorem not_mem_of_breakOn? {c : Char} {s before rest : Slice}
    (h : s.breakOn? [c] = some (before, rest)) : c ∉ before.text := by
  intro hmem
  obtain ⟨⟨found, back⟩, hbreak, heq⟩ := Option.map_eq_some_iff.1 h
  obtain ⟨rfl, -⟩ := Prod.mk.inj heq
  obtain ⟨tail, -, -, hfirst⟩ := exists_of_breakBefore? hbreak
  obtain ⟨front, more, rfl⟩ := List.append_of_mem hmem
  have hnone := hfirst front (c :: more) rfl (List.cons_ne_nil c more)
  exact behind?_eq_none_iff.1 hnone ⟨more ++ tail, rfl⟩

end LocaleAudit.Text.Slice
