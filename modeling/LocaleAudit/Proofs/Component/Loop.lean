import LocaleAudit.Component.Keys
import LocaleAudit.Proofs.Component.Attribute

/-!
# LocaleAudit.Proofs.Component.Loop

The source of a loop.  The value of a `v-for` attribute is written as the names that the loop binds,
one of two words between spaces, and the source.  The value is searched for the first word from
start to end before it is searched for the second, so that a source behind the second word is read
as it is written only if the first word does not stand in it.

* `breakOn?_written`, `length_lt_of_breakOn?` — where a value is cut at a word;
* `loopSource_eq_iff` — when what is behind the word of a loop is found;
* `scan_writtenLoop` — the expression that is scanned for a loop;
* `split_in_source` — a loop whose source is cut in two.
-/

namespace LocaleAudit.Component

open Text Slice

/-! ## words -/

/-- A word between the names and the source of a loop. -/
inductive LoopWord
  /-- The word that is looked for first. -/
  | inside
  /-- The word that is looked for next. -/
  | of

namespace LoopWord

/-- A word as it is looked for. -/
def mark : LoopWord → List Char
  | inside => " in ".toList
  | of => " of ".toList

/-- A word without the space behind it. -/
def start (w : LoopWord) : List Char := w.mark.dropLast

/-- A word is two characters between spaces. -/
theorem exists_mark (w : LoopWord) :
    ∃ x y, x ≠ ' ' ∧ y ≠ ' ' ∧ w.mark = [' ', x, y, ' '] ∧ w.start = [' ', x, y] := by
  cases w with
  | inside => exact ⟨'i', 'n', by decide, by decide, rfl, rfl⟩
  | of => exact ⟨'o', 'f', by decide, by decide, rfl, rfl⟩

theorem length_mark (w : LoopWord) : w.mark.length = 4 := by
  obtain ⟨x, y, -, -, hmark, -⟩ := w.exists_mark
  simp [hmark]

/-- A word that begins in front of a place where it stands lies in front of that place, or it only
shares its last space with what stands there. -/
theorem prefix_or_eq_start {w : LoopWord} {back source : List Char} (hne : back ≠ [])
    (h : w.mark <+: back ++ (w.mark ++ source)) : w.mark <+: back ∨ back = w.start := by
  obtain ⟨x, y, hx, hy, hmark, hstart⟩ := w.exists_mark
  rw [hmark] at h ⊢
  rw [hstart]
  -- how far the second one begins behind the first
  rcases back with _ | ⟨a, _ | ⟨b, _ | ⟨c, _ | ⟨d, more⟩⟩⟩⟩
  · contradiction
  · simp [hx] at h
  · simp [hy] at h
  · simp only [List.cons_append, List.cons_prefix_cons] at h
    obtain ⟨rfl, rfl, rfl, -⟩ := h
    exact .inr rfl
  · simp only [List.cons_append, List.cons_prefix_cons] at h
    obtain ⟨rfl, rfl, rfl, rfl, -⟩ := h
    exact .inl (by simp)

end LoopWord

section cut

variable {w : LoopWord} {names source : List Char} {o : Nat}

/-- **A value is cut at a word** that stands neither in the names in front of it nor, but for its
last space, at their end. -/
theorem breakOn?_written (h : ¬ w.mark <:+: names) (hstart : ¬ w.start <:+ names) :
    breakOn? w.mark ⟨o, names ++ w.mark ++ source⟩ =
      some (⟨o, names⟩, ⟨o + byteLength (names ++ w.mark), source⟩) := by
  have htook := took_append o (names ++ w.mark) source
  refine breakAt?_of_took htook (behind?_eq_some_iff.2 rfl) fun front back hsplit hne => ?_
  refine behind?_eq_none_iff.2 fun hprefix => ?_
  subst hsplit
  cases LoopWord.prefix_or_eq_start hne hprefix with
  | inl hback => exact h (hback.isInfix.trans (List.suffix_append front back).isInfix)
  | inr hback => exact hstart ⟨front, by rw [hback]⟩

/-- More is left of a value where the names in front of a word end as the word begins. -/
theorem length_lt_of_breakOn? {before rest : Slice} (h : w.start <:+ names)
    (hbreak : breakOn? w.mark ⟨o, names ++ w.mark ++ source⟩ = some (before, rest)) :
    source.length < rest.text.length := by
  obtain ⟨front, rfl⟩ := h
  obtain ⟨-, htook⟩ := took_of_breakOn? hbreak
  obtain ⟨⟨text, left⟩, htext, heq⟩ := Option.map_eq_some_iff.1 hbreak
  obtain ⟨rfl, -⟩ := Prod.mk.inj heq
  obtain ⟨x, y, -, -, hmark, hstart⟩ := w.exists_mark
  have hearlier : front ++ w.start ++ w.mark ++ source =
      front ++ w.mark ++ (w.mark.tail ++ source) := by
    simp [hmark, hstart]
  have hfirst := (prefix_of_breakText? htext hearlier).length_le
  have hlength := congrArg List.length htook.text
  simp [hmark, hstart] at hlength
  omega

end cut

/-! ## loops -/

theorem loopSource_of_inside {value before rest : Slice}
    (h : value.breakOn? LoopWord.inside.mark = some (before, rest)) : loopSource value = rest := by
  rw [LoopWord.mark] at h
  rw [loopSource, h]

theorem loopSource_of_of {value before rest : Slice}
    (hnone : ¬ LoopWord.inside.mark <:+: value.text)
    (h : value.breakOn? LoopWord.of.mark = some (before, rest)) : loopSource value = rest := by
  rw [← breakOn?_eq_none_iff, LoopWord.mark] at hnone
  rw [LoopWord.mark] at h
  rw [loopSource, hnone, h]

/-- What a loop goes over is a part of its value that reaches to the end. -/
theorem behind_loopSource (value : Slice) : (loopSource value).Behind value := by
  unfold loopSource
  split
  · rename_i hbreak
    exact (took_of_breakOn? hbreak).2.left
  · split
    · rename_i hbreak
      exact (took_of_breakOn? hbreak).2.left
    · exact .refl value

/-- A loop as it is written.  No word stands in the names. -/
structure WrittenLoop where
  names : List Char
  word : LoopWord
  source : List Char
  plain : ∀ w : LoopWord, ¬ w.mark <:+: names

namespace WrittenLoop

/-- The value of a loop. -/
def text (l : WrittenLoop) : List Char := l.names ++ l.word.mark ++ l.source

/-- The word of a loop is the one that is found. -/
structure Unmistaken (l : WrittenLoop) : Prop where
  /-- The names do not end as the word begins. -/
  apart : ¬ l.word.start <:+ l.names
  /-- The word that is looked for first stands nowhere else. -/
  first : l.word = .of → ¬ LoopWord.inside.mark <:+: l.text

theorem exists_breakOn? {w : LoopWord} {v : Slice} (h : w.mark <:+: v.text) :
    ∃ before rest, v.breakOn? w.mark = some (before, rest) := by
  cases hbreak : v.breakOn? w.mark with
  | none => exact absurd h (breakOn?_eq_none_iff.1 hbreak)
  | some cut => exact ⟨cut.1, cut.2, rfl⟩

/-- A loop with the second word is cut elsewhere if the first word stands in it. -/
theorem loopSource_text_ne {l : WrittenLoop} (hword : l.word = .of)
    (h : LoopWord.inside.mark <:+: l.text) (o : Nat) :
    (loopSource ⟨o, l.text⟩).text ≠ l.source := by
  obtain ⟨before, rest, hbreak⟩ := exists_breakOn? (v := ⟨o, l.text⟩) h
  obtain ⟨-, htook⟩ := took_of_breakOn? hbreak
  rw [loopSource_of_inside hbreak]
  intro heq
  have htext : l.names ++ l.word.mark ++ l.source =
      before.text ++ LoopWord.inside.mark ++ rest.text := htook.text
  rw [hword, heq] at htext
  have hmarks := List.append_inj_right' (List.append_cancel_right htext)
    (by simp only [LoopWord.length_mark])
  exact absurd hmarks (by decide)

/-- **A loop is cut** at its word if no mistake is made about it, and then what is left is its
source. -/
theorem loopSource_eq_iff (l : WrittenLoop) (o : Nat) :
    loopSource ⟨o, l.text⟩ = ⟨o + byteLength (l.names ++ l.word.mark), l.source⟩ ↔
      l.Unmistaken := by
  obtain ⟨before, rest, hbreak⟩ :=
    exists_breakOn? (v := ⟨o, l.text⟩) (w := l.word) ⟨l.names, l.source, rfl⟩
  have hcut (h : loopSource ⟨o, l.text⟩ = rest) :
      loopSource ⟨o, l.text⟩ = ⟨o + byteLength (l.names ++ l.word.mark), l.source⟩ ↔
        ¬ l.word.start <:+ l.names := by
    rw [h]
    constructor
    · rintro rfl hstart
      exact Nat.lt_irrefl l.source.length (length_lt_of_breakOn? (o := o) hstart hbreak)
    · intro hstart
      have hwritten : Slice.breakOn? l.word.mark ⟨o, l.text⟩ = some (⟨o, l.names⟩,
          ⟨o + byteLength (l.names ++ l.word.mark), l.source⟩) :=
        breakOn?_written (l.plain l.word) hstart
      rw [hbreak] at hwritten
      exact (Prod.mk.inj (Option.some.inj hwritten)).2
  cases hword : l.word with
  | inside =>
      rw [hword] at hbreak hcut
      rw [hcut (loopSource_of_inside hbreak)]
      exact ⟨fun h => ⟨hword ▸ h, by simp [hword]⟩, fun h => hword ▸ h.apart⟩
  | of =>
      by_cases hfirst : LoopWord.inside.mark <:+: l.text
      · have hne := loopSource_text_ne hword hfirst o
        exact iff_of_false (fun heq => hne (congrArg Slice.text heq)) fun h => h.first hword hfirst
      · rw [hword] at hbreak hcut
        rw [hcut (loopSource_of_of hfirst hbreak)]
        exact ⟨fun h => ⟨hword ▸ h, fun _ => hfirst⟩, fun h => hword ▸ h.apart⟩

end WrittenLoop

/-- The value of a `v-for` attribute of any tag is a loop. -/
theorem attributePart?_loop (tag : List Char) (place : Nat) (value : Slice) :
    attributePart? tag ⟨⟨place, "v-for".toList⟩, some value⟩ =
      some (.expression (loopSource value)) := by
  have hkey : keyAttributePart? (String.ofList "v-for".toList) place value = none := by
    rw [String.ofList_toList]
    simp [keyAttributePart?]
  have hdirective : directivePart? "v-for".toList place value =
      some (.expression (loopSource value)) := rfl
  simp only [attributePart?, Option.bind_eq_bind, Option.bind_some]
  rw [hkey, hdirective, ite_self]
  rfl

/-- What is left of a slice stands where the slice does. -/
theorem stands_of_behind {front text : List Char} {code : Slice} (back : List Char)
    (h : code.Behind ⟨byteLength front, text⟩) : Stands (front ++ text ++ back) code := by
  obtain ⟨cs, hcs⟩ := h
  have htext : text = cs ++ code.text := hcs.text
  refine ⟨front ++ cs, back, by simp [htext], ?_⟩
  rw [hcs.offset, byteLength_append]

/-- **The loop of a `v-for` attribute.**  Wherever its value stands in a file, the expression that is
scanned stands there too and ends with the value, and it is the source that is written if and only
if the word of the loop is the one that is found. -/
theorem scan_writtenLoop (l : WrittenLoop) (tag : List Char) (place : Nat)
    (front back : List Char) :
    ∃ code, attributePart? tag ⟨⟨place, "v-for".toList⟩, some ⟨byteLength front, l.text⟩⟩ =
        some (.expression code) ∧
      Stands (front ++ l.text ++ back) code ∧
      (code = ⟨byteLength (front ++ l.names ++ l.word.mark), l.source⟩ ↔ l.Unmistaken) := by
  refine ⟨loopSource ⟨byteLength front, l.text⟩, attributePart?_loop tag place _, ?_, ?_⟩
  · exact stands_of_behind back (behind_loopSource ⟨byteLength front, l.text⟩)
  · rw [List.append_assoc, byteLength_append]
    exact l.loopSource_eq_iff (byteLength front)

/-- A loop with the second word, over a source in which the first one is an operator. -/
def testedLoop : WrittenLoop where
  names := "x".toList
  word := .of
  source := "$t('k') in o".toList
  plain w := by cases w <;> decide

/-- **The source is cut in two**, and the key in it is not seen. -/
theorem split_in_source :
    testedLoop.text = "x of $t('k') in o".toList ∧
      attributePart? "li".toList ⟨⟨14, "v-for".toList⟩, some ⟨21, "x of $t('k') in o".toList⟩⟩ =
        some (.expression ⟨37, "o".toList⟩) ∧
      collectUsages ["$t"] "a.vue"
        "<template><li v-for=\"x of $t('k') in o\"></li></template>".toList = some [] := by
  exact ⟨by decide, by decide +kernel, by decide +kernel⟩

end LocaleAudit.Component
