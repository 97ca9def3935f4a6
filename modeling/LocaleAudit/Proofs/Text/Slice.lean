import LocaleAudit.Text.Slice

/-!
# LocaleAudit.Proofs.Text.Slice

What a reader takes from a slice.  Every reader of this library takes a text from the start of a
slice and leaves the slice behind it; `Took` says so, and the operations of slices are described
by it in both directions.

* `span_eq_of_took` — the longest beginning of some characters;
* `strip?_eq_some_iff` — a given beginning;
* `took_of_breakOn?` — what is in front of a mark, and the mark.
-/

namespace LocaleAudit.Text

/-- A text does not go on with a character of some kind. -/
def Stops (p : Char → Bool) (t : List Char) : Prop := ∀ c ∈ t.head?, p c = false

@[simp] theorem stops_nil (p : Char → Bool) : Stops p [] := by simp [Stops]

@[simp] theorem stops_cons {p : Char → Bool} {c : Char} {t : List Char} :
    Stops p (c :: t) ↔ p c = false := by simp [Stops]

/-- A text that stops one kind of characters stops every narrower kind. -/
theorem Stops.mono {p q : Char → Bool} {t : List Char} (h : Stops p t)
    (hqp : ∀ c, q c = true → p c = true) : Stops q t := by
  intro c hc
  cases hq : q c with
  | false => rfl
  | true => exact absurd (hqp c hq) (by simp [h c hc])

theorem Stops.append {p : Char → Bool} {cs : List Char} (h : Stops p cs) (hne : cs ≠ [])
    (t : List Char) : Stops p (cs ++ t) := by
  cases cs with
  | nil => exact absurd rfl hne
  | cons c cs => simpa using h

theorem stops_dropWhile (p : Char → Bool) (t : List Char) : Stops p (t.dropWhile p) := by
  intro c hc
  have hnot := List.head?_dropWhile_not p t
  rwa [Option.mem_def.1 hc] at hnot

theorem Stops.takeWhile_append {p : Char → Bool} {cs t : List Char} (h : Stops p t)
    (hall : ∀ c ∈ cs, p c = true) : (cs ++ t).takeWhile p = cs := by
  rw [List.takeWhile_append_of_pos hall]
  cases t with
  | nil => simp
  | cons c t => simp [stops_cons.1 h]

theorem Stops.dropWhile_append {p : Char → Bool} {cs t : List Char} (h : Stops p t)
    (hall : ∀ c ∈ cs, p c = true) : (cs ++ t).dropWhile p = t := by
  rw [List.dropWhile_append_of_pos hall]
  cases t with
  | nil => simp
  | cons c t => simp [stops_cons.1 h]

namespace Slice

/-- A text stands at the start of a slice, and `rest` is the slice behind it. -/
structure Took (s : Slice) (cs : List Char) (rest : Slice) : Prop where
  text : s.text = cs ++ rest.text
  offset : rest.offset = s.offset + byteLength cs

theorem took_nil (s : Slice) : Took s [] s := ⟨rfl, rfl⟩

theorem took_append (o : Nat) (cs t : List Char) :
    Took ⟨o, cs ++ t⟩ cs ⟨o + byteLength cs, t⟩ := ⟨rfl, rfl⟩

/-- What stands at the start of a slice stands there when the slice goes on. -/
theorem Took.append {s rest : Slice} {cs : List Char} (h : Took s cs rest) (more : List Char) :
    Took ⟨s.offset, s.text ++ more⟩ cs ⟨rest.offset, rest.text ++ more⟩ where
  text := by rw [h.text, List.append_assoc]
  offset := h.offset

/-- Two texts in a row are one text. -/
theorem Took.trans {s r t : Slice} {cs ds : List Char} (h₁ : Took s cs r) (h₂ : Took r ds t) :
    Took s (cs ++ ds) t where
  text := by rw [h₁.text, h₂.text, List.append_assoc]
  offset := by rw [h₂.offset, h₁.offset, byteLength_append, Nat.add_assoc]

/-- One text is two texts in a row. -/
theorem Took.split {s t : Slice} {cs ds : List Char} (h : Took s (cs ++ ds) t) :
    ∃ r, Took s cs r ∧ Took r ds t ∧ r = ⟨s.offset + byteLength cs, ds ++ t.text⟩ := by
  refine ⟨_, ⟨?_, rfl⟩, ⟨rfl, ?_⟩, rfl⟩
  · rw [h.text, List.append_assoc]
  · rw [h.offset, byteLength_append, Nat.add_assoc]

/-- There is one slice behind a text. -/
theorem Took.eq {s r t : Slice} {cs : List Char} (h₁ : Took s cs r) (h₂ : Took s cs t) : r = t := by
  obtain ⟨ro, rt⟩ := r
  obtain ⟨po, pt⟩ := t
  have htext : rt = pt := List.append_cancel_left (h₁.text.symm.trans h₂.text)
  have hoffset : ro = po := h₁.offset.trans h₂.offset.symm
  rw [htext, hoffset]

theorem took_drop_one {s : Slice} {c : Char} {t : List Char} (h : s.text = c :: t) :
    Took s [c] (s.drop 1) where
  text := by simp [drop, h]
  offset := by simp [drop, h]

theorem took_drop {s : Slice} {cs t : List Char} (h : s.text = cs ++ t) :
    Took s cs (s.drop cs.length) where
  text := by simp [drop, h]
  offset := by simp [drop, h]

/-- The slice behind a text is the one without as many characters. -/
theorem Took.drop_length {s r : Slice} {cs : List Char} (h : Took s cs r) :
    s.drop cs.length = r := (took_drop h.text).eq h

/-- What stands in front of the slice behind it is all that was taken. -/
theorem Took.take_text {s r : Slice} {cs : List Char} (h : Took s cs r) :
    s.text.take (s.text.length - r.text.length) = cs := by
  rw [h.text, List.length_append, Nat.add_sub_cancel, List.take_left]

/-- What stands behind the first character stands at the start of the slice without it. -/
theorem Took.behind {s rest : Slice} {c : Char} {cs : List Char} (h : Took s (c :: cs) rest) :
    Took (s.drop 1) cs rest := by
  have hsplit : Took s ([c] ++ cs) rest := h
  obtain ⟨r, hfirst, hrest, -⟩ := hsplit.split
  rwa [(took_drop_one hfirst.text).eq hfirst]

/-- The slice behind one character is the one without it. -/
theorem Took.drop_one {s r : Slice} {c : Char} (h : Took s [c] r) : s.drop 1 = r :=
  (took_drop_one h.text).eq h

/-! ## cutting -/

theorem took_span (p : Char → Bool) (s : Slice) : Took s (s.span p).1.text (s.span p).2 :=
  ⟨(text_span p s).symm, rfl⟩

theorem all_span (p : Char → Bool) (s : Slice) : ∀ c ∈ (s.span p).1.text, p c = true := by
  intro c hc
  exact List.all_eq_true.1 (List.all_takeWhile (l := s.text)) c hc

theorem stops_span (p : Char → Bool) (s : Slice) : Stops p (s.span p).2.text :=
  stops_dropWhile p s.text

/-- **The longest beginning** is the one that cannot go on. -/
theorem span_eq_of_took {p : Char → Bool} {s rest : Slice} {cs : List Char}
    (htook : Took s cs rest) (hall : ∀ c ∈ cs, p c = true) (hstops : Stops p rest.text) :
    s.span p = (⟨s.offset, cs⟩, rest) := by
  have htake : s.text.takeWhile p = cs := by
    rw [htook.text, hstops.takeWhile_append hall]
  have hrest : (s.span p).2 = rest := by
    have h := took_span p s
    rw [show (s.span p).1.text = cs from htake] at h
    exact h.eq htook
  rw [← hrest, ← htake]
  rfl

theorem strip?_eq_some_iff {mark : List Char} {s rest : Slice} :
    s.strip? mark = some rest ↔ Took s mark rest := by
  constructor
  · intro h
    refine ⟨(text_of_strip? h).symm, ?_⟩
    rw [strip?, Option.map_eq_some_iff] at h
    obtain ⟨t, -, rfl⟩ := h
    rfl
  · intro h
    rw [strip?, behind?_eq_some_iff.2 h.text.symm, Option.map_some, ← h.offset]

/-- What is in front of a mark stands at the start of a slice, and the mark behind it. -/
theorem took_of_breakOn? {mark : List Char} {s before rest : Slice}
    (h : s.breakOn? mark = some (before, rest)) :
    before.offset = s.offset ∧ Took s (before.text ++ mark) rest := by
  obtain ⟨⟨front, back⟩, hbreak, heq⟩ := Option.map_eq_some_iff.1 h
  obtain ⟨rfl, rfl⟩ := Prod.mk.inj heq
  have htext := text_of_breakText? hbreak
  refine ⟨rfl, htext.symm, ?_⟩
  rw [← htext, byteLength_append]
  dsimp only
  omega

/-- The text in front of the last occurrence of a mark is a beginning. -/
theorem exists_of_beforeLast? {mark text before : List Char}
    (h : beforeLast? mark text = some before) : ∃ after, text = before ++ after := by
  induction text generalizing before with
  | nil =>
      rw [beforeLast?, Option.ite_none_right_eq_some] at h
      obtain rfl := Option.some.inj h.2
      exact ⟨[], rfl⟩
  | cons c cs ih =>
      rw [beforeLast?] at h
      split at h
      · rename_i front hfront
        obtain rfl := Option.some.inj h
        obtain ⟨after, rfl⟩ := ih hfront
        exact ⟨after, rfl⟩
      · rw [Option.ite_none_right_eq_some] at h
        obtain rfl := Option.some.inj h.2
        exact ⟨c :: cs, rfl⟩

/-! ## what is left -/

/-- A slice is what is left of another one. -/
def Behind (rest s : Slice) : Prop := ∃ cs, Took s cs rest

theorem Took.left {s rest : Slice} {cs : List Char} (h : Took s cs rest) : rest.Behind s := ⟨cs, h⟩

theorem Behind.refl (s : Slice) : s.Behind s := ⟨[], took_nil s⟩

theorem Behind.trans {s r t : Slice} (h₁ : t.Behind r) (h₂ : r.Behind s) : t.Behind s := by
  obtain ⟨cs, h₁⟩ := h₁
  obtain ⟨ds, h₂⟩ := h₂
  exact ⟨ds ++ cs, h₂.trans h₁⟩

theorem behind_drop (n : Nat) (s : Slice) : (s.drop n).Behind s :=
  ⟨s.text.take n, (List.take_append_drop n s.text).symm, rfl⟩

theorem behind_skipWhile (p : Char → Bool) (s : Slice) : (s.skipWhile p).Behind s :=
  ⟨_, took_span p s⟩

theorem behind_of_strip? {mark : List Char} {s rest : Slice} (h : s.strip? mark = some rest) :
    rest.Behind s := ⟨mark, strip?_eq_some_iff.1 h⟩

end Slice

end LocaleAudit.Text
