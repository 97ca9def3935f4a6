import LocaleAudit.Component.Markup

/-!
# LocaleAudit.Proofs.Component.Comment

A template and its blanked text, character by character.  Blanking a comment keeps the bytes of a
text but not its characters, so that a place in the blanked text need not lie between two characters
of the template.  It does where no comment reaches across it, and that can be seen in the blanked
text.

* `chars_marks`, `shown_marks` — the marked characters of a text are its characters, and leave what
  blanking leaves of it;
* `exists_cut` — a cut through the blanked text at an edge is a cut through the text.
-/

namespace LocaleAudit.Component

open Text

/-! ## marked characters -/

/-- A character of a template, and whether it belongs to a comment. -/
structure Marked where
  /-- The character. -/
  char : Char
  /-- Whether it belongs to a comment. -/
  commented : Bool

/-- What a character leaves when comments are blanked. -/
def Marked.shown (m : Marked) : List Char := if m.commented then blanks m.char else [m.char]

/-- The characters of a stretch. -/
def chars (ms : List Marked) : List Char := ms.map Marked.char

/-- What a stretch leaves when comments are blanked. -/
def shown (ms : List Marked) : List Char := ms.flatMap Marked.shown

/-- The marked characters of a text that starts inside a comment or outside. -/
def marksFrom : Bool → List Char → List Marked
  | _, [] => []
  | false, '<' :: '!' :: '-' :: '-' :: cs =>
    ⟨'<', true⟩ :: ⟨'!', true⟩ :: ⟨'-', true⟩ :: ⟨'-', true⟩ :: marksFrom true cs
  | false, c :: cs => ⟨c, false⟩ :: marksFrom false cs
  | true, '-' :: '-' :: '>' :: cs =>
    ⟨'-', true⟩ :: ⟨'-', true⟩ :: ⟨'>', true⟩ :: marksFrom false cs
  | true, c :: cs => ⟨c, true⟩ :: marksFrom true cs

/-- The marked characters of a text. -/
def marks (text : List Char) : List Marked := marksFrom false text

@[simp] theorem chars_append (ms ns : List Marked) : chars (ms ++ ns) = chars ms ++ chars ns :=
  List.map_append

@[simp] theorem shown_append (ms ns : List Marked) : shown (ms ++ ns) = shown ms ++ shown ns :=
  List.flatMap_append

@[simp] theorem chars_cons (m : Marked) (ms : List Marked) :
    chars (m :: ms) = m.char :: chars ms := rfl

@[simp] theorem shown_cons (m : Marked) (ms : List Marked) :
    shown (m :: ms) = m.shown ++ shown ms := rfl

@[simp] theorem shown_singleton (m : Marked) : shown [m] = m.shown := List.flatMap_singleton ..

theorem chars_marksFrom (inside : Bool) (text : List Char) :
    chars (marksFrom inside text) = text := by
  fun_induction marksFrom inside text with
  | case1 => rfl
  | case2 cs ih => simp only [chars_cons, ih]
  | case3 c cs _ ih => simp only [chars_cons, ih]
  | case4 cs ih => simp only [chars_cons, ih]
  | case5 c cs _ ih => simp only [chars_cons, ih]

theorem shown_marksFrom (inside : Bool) (text : List Char) :
    shown (marksFrom inside text) = blankFrom inside text := by
  fun_induction marksFrom inside text with
  | case1 inside => cases inside <;> rfl
  | case2 cs ih =>
      rw [blankFrom, ← ih]
      rfl
  | case3 c cs hopening ih =>
      rw [blankFrom, ← ih]
      · rfl
      · exact hopening
  | case4 cs ih =>
      rw [blankFrom, ← ih]
      rfl
  | case5 c cs hending ih =>
      rw [blankFrom, ← ih]
      · rfl
      · exact hending

theorem chars_marks (text : List Char) : chars (marks text) = text := chars_marksFrom false text

theorem shown_marks (text : List Char) : shown (marks text) = blankComments text :=
  shown_marksFrom false text

/-- A character that is not in a comment stands behind those that are. -/
theorem exists_of_cons_commented {k m : Marked} {ms before after : List Marked}
    (hm : m.commented = true) (hk : k.commented = false) (h : m :: ms = before ++ k :: after) :
    ∃ before', ms = before' ++ k :: after := by
  cases before with
  | nil =>
      obtain rfl := (List.cons.inj h).1
      rw [hm] at hk
      contradiction
  | cons b before => exact ⟨before, (List.cons.inj h).2⟩

/-- Behind a character that is not in a comment, a text starts anew. -/
theorem marksFrom_behind {inside : Bool} {text : List Char} {k : Marked}
    {before after : List Marked} (hk : k.commented = false)
    (h : marksFrom inside text = before ++ k :: after) : ∃ rest, after = marks rest := by
  fun_induction marksFrom inside text generalizing before with
  | case1 => exact absurd h.symm (by simp)
  | case2 cs ih =>
      obtain ⟨_, h⟩ := exists_of_cons_commented rfl hk h
      obtain ⟨_, h⟩ := exists_of_cons_commented rfl hk h
      obtain ⟨_, h⟩ := exists_of_cons_commented rfl hk h
      obtain ⟨_, h⟩ := exists_of_cons_commented rfl hk h
      exact ih h
  | case3 c cs _ ih =>
      cases before with
      | nil => exact ⟨cs, (List.cons.inj h).2.symm⟩
      | cons b before => exact ih (List.cons.inj h).2
  | case4 cs ih =>
      obtain ⟨_, h⟩ := exists_of_cons_commented rfl hk h
      obtain ⟨_, h⟩ := exists_of_cons_commented rfl hk h
      obtain ⟨_, h⟩ := exists_of_cons_commented rfl hk h
      exact ih h
  | case5 c cs _ ih =>
      obtain ⟨_, h⟩ := exists_of_cons_commented rfl hk h
      exact ih h

/-- A comment begins with an angle bracket. -/
theorem char_of_marks {text : List Char} {m : Marked} {ms : List Marked}
    (h : marks text = m :: ms) (hm : m.commented = true) : m.char = '<' := by
  unfold marks at h
  unfold marksFrom at h
  split at h
  · contradiction
  · rw [← (List.cons.inj h).1]
  · rw [← (List.cons.inj h).1] at hm
    contradiction
  · contradiction
  · contradiction

/-! ## cuts -/

theorem mem_blanks {c d : Char} (h : d ∈ blanks c) : d = ' ' ∨ d = '\n' := by
  rw [blanks] at h
  split at h
  · exact .inr (List.mem_singleton.1 h)
  · exact .inl (List.eq_of_mem_replicate h)

/-- Two sides of a place in a blanked text such that no comment reaches across it, or only one that
begins right in front of it. -/
inductive Edge : List Char → List Char → Prop
  | behind {c : Char} (front back : List Char) (hc : c ≠ ' ') : Edge (front ++ [c]) back
  | before {c : Char} (front back : List Char) (hc : c ≠ ' ') : Edge front (c :: back)
  | space {c : Char} (front back : List Char) (hc : c ≠ ' ') (hn : c ≠ '\n') :
      Edge (front ++ [c, ' ']) back

theorem Edge.append_left {front back : List Char} (h : Edge front back) (more : List Char) :
    Edge (more ++ front) back := by
  cases h with
  | behind front back hc => exact List.append_assoc .. ▸ .behind (more ++ front) back hc
  | before front back hc => exact .before (more ++ front) back hc
  | space front back hc hn => exact List.append_assoc .. ▸ .space (more ++ front) back hc hn

/-- Blanking keeps the bytes of a character. -/
theorem Marked.byteLength_shown (m : Marked) : byteLength m.shown = m.char.utf8Size := by
  rw [shown]
  split
  · exact byteLength_blanks m.char
  · exact byteLength_cons m.char []

theorem byteLength_shown (ms : List Marked) : byteLength (shown ms) = byteLength (chars ms) := by
  induction ms with
  | nil => rfl
  | cons m ms ih =>
      rw [shown_cons, byteLength_append, m.byteLength_shown, ih, chars_cons, byteLength_cons]

/-- What leaves a character that is no blank is not in a comment. -/
theorem Marked.not_commented {m : Marked} {c : Char} (h : c ∈ m.shown) (hc : c ≠ ' ')
    (hn : c ≠ '\n') : m.commented = false := by
  rw [Bool.eq_false_iff]
  intro hm
  rw [shown, if_pos hm] at h
  exact (mem_blanks h).elim hc hn

/-- The last of what a stretch leaves is the last of what its last character leaves. -/
theorem exists_last_of_shown {ms : List Marked} {front : List Char} {c : Char}
    (h : shown ms = front ++ [c]) : ∃ before m, ms = before ++ [m] ∧ c ∈ m.shown := by
  rcases List.eq_nil_or_concat ms with rfl | ⟨before, m, rfl⟩
  · exact absurd h.symm (by simp [shown])
  · refine ⟨before, m, List.concat_eq_append, ?_⟩
    have hpos := m.char.utf8Size_pos
    rw [← m.byteLength_shown] at hpos
    rcases List.eq_nil_or_concat m.shown with hm | ⟨ds, d, hm⟩
    · rw [hm] at hpos
      contradiction
    · rw [List.concat_eq_append] at h hm
      rw [shown_append, shown_singleton, hm, ← List.append_assoc] at h
      rw [hm, ← List.singleton_inj.1 (List.append_inj' h rfl).2]
      exact List.mem_append_right ds (List.mem_singleton_self d)

/-- A place inside of what a character leaves lies between two spaces. -/
theorem Marked.spaces_of_shown {m : Marked} {p q : List Char} {c d : Char}
    (h : m.shown = p ++ c :: d :: q) : c = ' ' ∧ d = ' ' := by
  have hlength : m.shown.length ≠ 1 := by
    rw [h, List.length_append, List.length_cons, List.length_cons]
    omega
  rw [shown, blanks] at h hlength
  split at h
  · split at h
    · rename_i hm hc
      exact absurd rfl (by rwa [if_pos hm, if_pos hc] at hlength)
    · have hmem : ∀ e ∈ p ++ c :: d :: q, e = ' ' := fun e he =>
        List.eq_of_mem_replicate (h ▸ he)
      exact ⟨hmem c (by simp), hmem d (by simp)⟩
  · rename_i hm
    exact absurd rfl (by rwa [if_neg hm] at hlength)

/-- A cut that does not lie between two spaces. -/
theorem exists_cut_of_not_spaces {text front back : List Char}
    (h : blankComments text = front ++ back)
    (hspaces : ∀ f b, front = f ++ [' '] → back ≠ ' ' :: b) :
    ∃ before after, marks text = before ++ after ∧ shown before = front ∧ shown after = back := by
  rw [← shown_marks, shown, List.flatMap_def, List.flatten_eq_append_iff] at h
  rcases h with ⟨as, bs, hmap, rfl, rfl⟩ | ⟨as, p, c, q, bs, hmap, rfl, rfl⟩
  · obtain ⟨before, after, hmarks, rfl, rfl⟩ := List.map_eq_append_iff.1 hmap
    exact ⟨before, after, hmarks, List.flatMap_def, List.flatMap_def⟩
  · obtain ⟨before, after, hmarks, rfl, hafter⟩ := List.map_eq_append_iff.1 hmap
    obtain ⟨m, after, rfl, hm, rfl⟩ := List.map_eq_cons_iff.1 hafter
    rcases List.eq_nil_or_concat p with rfl | ⟨p, d, rfl⟩
    · refine ⟨before, m :: after, hmarks, ?_, ?_⟩
      · rw [shown, List.flatMap_def, List.append_nil]
      · rw [shown_cons, hm, shown, List.flatMap_def, List.nil_append]
    · rw [List.concat_eq_append, List.append_assoc] at hm
      obtain ⟨rfl, rfl⟩ := Marked.spaces_of_shown hm
      rw [List.concat_eq_append, ← List.append_assoc] at hspaces
      exact absurd rfl (hspaces _ _ rfl)

/-- The character behind one that is not in a comment leaves one character. -/
theorem exists_shown_of_behind {text : List Char} {k m : Marked} {before after : List Marked}
    (h : marks text = before ++ k :: m :: after) (hk : k.commented = false) :
    ∃ e, m.shown = [e] := by
  cases hm : m.commented with
  | false => exact ⟨m.char, by rw [Marked.shown, if_neg (by simp [hm])]⟩
  | true =>
      obtain ⟨rest, hrest⟩ := marksFrom_behind hk h
      have hchar := char_of_marks hrest.symm hm
      exact ⟨' ', by rw [Marked.shown, if_pos hm, hchar]; rfl⟩

/-- **A cut through a blanked text** at an edge is a cut through the text. -/
theorem exists_cut {text front back : List Char} (h : blankComments text = front ++ back)
    (hedge : Edge front back) :
    ∃ before after, marks text = before ++ after ∧ shown before = front ∧ shown after = back := by
  have hlast {c : Char} {f front : List Char} (hc : c ≠ ' ') : front ++ [c] ≠ f ++ [' '] :=
    fun h => hc (List.singleton_inj.1 (List.append_inj' h rfl).2)
  cases hedge with
  | behind front back hc =>
      exact exists_cut_of_not_spaces h fun f b hfront => absurd hfront (hlast hc)
  | before front back hc =>
      exact exists_cut_of_not_spaces h fun f b _ hback => hc (List.cons.inj hback).1
  | @space c front back hc hn =>
      -- the cut in front of the space, moved behind the one character that leaves it
      rw [List.append_cons, List.append_assoc] at h
      obtain ⟨before, after, hmarks, hbefore, hafter⟩ :=
        exists_cut_of_not_spaces h fun f b hfront => absurd hfront (hlast hc)
      obtain ⟨before, k, rfl, hck⟩ := exists_last_of_shown hbefore
      cases after with
      | nil => contradiction
      | cons m after =>
          have hbehind : marks text = before ++ k :: m :: after := by rw [hmarks]; simp
          obtain ⟨e, he⟩ := exists_shown_of_behind hbehind (Marked.not_commented hck hc hn)
          rw [shown_cons, he] at hafter
          obtain rfl := (List.cons.inj hafter).1
          refine ⟨before ++ [k, m], after, by rw [hbehind]; simp, ?_, (List.cons.inj hafter).2⟩
          rw [List.append_cons, shown_append, hbefore]
          simp [he, shown]

end LocaleAudit.Component
