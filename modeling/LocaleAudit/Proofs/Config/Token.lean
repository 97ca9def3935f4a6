import LocaleAudit.Config.Reader
import LocaleAudit.Proofs.Json.Printer
import Mathlib.Data.List.Basic

/-!
# LocaleAudit.Proofs.Config.Token

The readers of words, strings and numbers of a configuration against the grammar of JSON.  They
look at the characters one by one to tell where a fault shows, and refuse half of a surrogate pair
and numbers that are too large, so the grammar has every text that they take, but not the other way
round.

* `stringRest_sound`, `numberRest_sound` — what is taken is a literal or a number of the grammar;
* `stringRest_quoted` — a printed string is read back.
-/

namespace LocaleAudit.Config

open Text Text.Slice Text.Utf16 Json Json.Grammar

@[simp] theorem failBefore_ne_ok {α : Type} {cause : Cause} {s : Slice} {r : α} :
    failBefore cause s ≠ .ok r := by simp [failBefore]

@[simp] theorem failAt_ne_ok {α : Type} {cause : Cause} {s : Slice} {r : α} :
    failAt cause s ≠ .ok r := by simp [failAt]

theorem wordRest_sound {w : List Char} {s rest : Slice} {u : Unit}
    (h : wordRest w s = .ok (u, rest)) : Took s w rest := by
  induction w generalizing s with
  | nil =>
      simp only [wordRest, Except.ok.injEq, Prod.mk.injEq] at h
      exact h.2 ▸ took_nil s
  | cons c w ih =>
      unfold wordRest at h
      split at h
      · simp at h
      · rename_i d t ht
        split at h
        · rename_i hc
          subst hc
          exact (took_drop_one ht).trans (ih h)
        · simp at h

/-! ## strings -/

theorem utf8Size_of_hexDigit? {c : Char} {x : Nat} (h : hexDigit? c = some x) : c.utf8Size = 1 := by
  have hlower : "0123456789abcdef".toList.all (·.utf8Size == 1) = true := by decide
  have hupper : "0123456789ABCDEF".toList.all (·.utf8Size == 1) = true := by decide
  rcases hexDigit_of_hexDigit? h with h | h
  · exact eq_of_beq (List.all_eq_true.1 hlower c (List.mem_of_getElem? h))
  · exact eq_of_beq (List.all_eq_true.1 hupper c (List.mem_of_getElem? h))

/-- Digits that all have a value are digits of the grammar, of one byte each. -/
theorem hexDigits_of_mapM {cs : List Char} {xs : List Nat} (h : cs.mapM hexDigit? = some xs)
    (v : Nat) :
    HexDigits v cs (xs.foldl (fun n d => n * 16 + d) v) ∧ byteLength cs = cs.length := by
  induction cs generalizing xs v with
  | nil =>
      obtain rfl : xs = [] := by simpa using h
      exact ⟨.nil, rfl⟩
  | cons c cs ih =>
      simp only [List.mapM_cons, Option.pure_def, Option.bind_eq_bind, Option.bind_eq_some_iff,
        Option.some.injEq] at h
      obtain ⟨x, hx, xs', hxs, rfl⟩ := h
      obtain ⟨hdigits, hlength⟩ := ih hxs (v * 16 + x)
      refine ⟨.cons (hexDigit?_eq_some_iff.1 hx) hdigits, ?_⟩
      rw [byteLength_cons, utf8Size_of_hexDigit? hx, hlength, List.length_cons, Nat.add_comm]

theorem hexDigits_sound {s rest : Slice} {u : Nat} (h : hexDigits s = .ok (u, rest)) :
    ∃ ds, ds.length = 4 ∧ HexDigits 0 ds u ∧ Took s ds rest := by
  unfold hexDigits at h
  split at h
  · simp at h
  · rename_i hbytes
    split at h
    · rename_i xs hxs
      simp only [Except.ok.injEq, Prod.mk.injEq] at h
      obtain ⟨rfl, rfl⟩ := h
      obtain ⟨hdigits, hlength⟩ := hexDigits_of_mapM hxs 0
      refine ⟨s.text.take 4, ?_, hdigits, (List.take_append_drop 4 s.text).symm, rfl⟩
      -- with fewer characters there are fewer bytes, because the digits have one byte each
      by_cases hshort : s.text.length ≤ 4
      · rw [List.take_of_length_le hshort] at hlength ⊢
        omega
      · rw [List.length_take]
        omega
    · simp at h

theorem pairPart_sound {c : Char} {s rest : Slice} {u : Unit} (h : pairPart c s = .ok (u, rest)) :
    Took s [c] rest := by
  unfold pairPart at h
  split at h
  · simp at h
  · rename_i d t ht
    split at h
    · rename_i hc
      subst hc
      simp only [Except.ok.injEq, Prod.mk.injEq] at h
      exact h.2 ▸ took_drop_one ht
    · simp at h

/-- An escape by number for a unit that is no half of a surrogate pair. -/
theorem piece_unit {ds : List Char} {u : Nat} (hlength : ds.length = 4) (hdigits : HexDigits 0 ds u)
    (hhigh : isHigh u = false) (hlow : isLow u = false) :
    Piece ('\\' :: 'u' :: ds) (unitsOf (Char.ofNat u).toNat) := by
  rw [unitsOf_ofNat (lt_of_hexDigits hlength hdigits) hhigh hlow]
  exact piece_numbered hlength hdigits

/-- Escapes by number for a surrogate pair. -/
theorem piece_pair {ds ds' : List Char} {u v : Nat} (hlength : ds.length = 4)
    (hdigits : HexDigits 0 ds u) (hlength' : ds'.length = 4) (hdigits' : HexDigits 0 ds' v)
    (hhigh : isHigh u = true) (hlow : isLow v = true) :
    Piece ('\\' :: 'u' :: (ds ++ '\\' :: 'u' :: ds')) (unitsOf (Char.ofNat (join u v)).toNat) := by
  rw [unitsOf_join hhigh hlow]
  exact (piece_numbered hlength hdigits).append (piece_numbered hlength' hdigits')

theorem numbered_sound {s rest : Slice} {c : Char} (h : numbered s = .ok (c, rest)) :
    ∃ piece, Piece ('\\' :: 'u' :: piece) (unitsOf c.toNat) ∧ Took s piece rest := by
  rw [numbered, bind_eq_ok_iff] at h
  obtain ⟨⟨u, s₁⟩, hunit, h⟩ := h
  obtain ⟨ds, hlength, hdigits, t₁⟩ := hexDigits_sound hunit
  dsimp only at h
  split at h
  · simp at h
  rename_i hlow
  split at h
  · rename_i hhigh
    simp only [bind_eq_ok_iff] at h
    obtain ⟨⟨_, s₂⟩, hslash, ⟨_, s₃⟩, hletter, ⟨v, s₄⟩, hunit', h⟩ := h
    obtain ⟨ds', hlength', hdigits', t₄⟩ := hexDigits_sound hunit'
    split at h
    · rename_i hlow'
      simp only [pure, Except.pure, Except.ok.injEq, Prod.mk.injEq] at h
      obtain ⟨rfl, rfl⟩ := h
      exact ⟨_, piece_pair hlength hdigits hlength' hdigits' hhigh hlow',
        t₁.trans ((pairPart_sound hslash).trans ((pairPart_sound hletter).trans t₄))⟩
    · simp at h
  · rename_i hhigh
    simp only [pure, Except.pure, Except.ok.injEq, Prod.mk.injEq] at h
    obtain ⟨rfl, rfl⟩ := h
    exact ⟨ds, piece_unit hlength hdigits (by simpa using hhigh) (by simpa using hlow), t₁⟩

/-- A character of a string, or its closing quote. -/
theorem character_sound {s rest : Slice} {c? : Option Char} (h : character s = .ok (c?, rest)) :
    (c? = none ∧ Took s ['"'] rest) ∨
      ∃ c piece, c? = some c ∧ Piece piece (unitsOf c.toNat) ∧ Took s piece rest := by
  unfold character at h
  split at h
  · simp at h
  · rename_i t ht
    simp only [Except.ok.injEq, Prod.mk.injEq] at h
    obtain ⟨rfl, rfl⟩ := h
    exact .inl ⟨rfl, took_drop_one ht⟩
  · rename_i t ht
    have htook : Took s ['\\', 'u'] (s.drop 2) := took_drop ht
    obtain ⟨c, hc, rfl⟩ := (made_eq_ok_iff fun c _ => some c).1 h
    obtain ⟨piece, hpiece, htook'⟩ := numbered_sound hc
    exact .inr ⟨c, _, rfl, hpiece, htook.trans htook'⟩
  · rename_i c t _ ht
    have htook : Took s ['\\', c] (s.drop 2) := took_drop ht
    split at h
    · rename_i d hd
      simp only [Except.ok.injEq, Prod.mk.injEq] at h
      obtain ⟨rfl, rfl⟩ := h
      exact .inr ⟨d, _, rfl, piece_short (shortEscape?_eq_some_iff.1 hd), htook⟩
    · simp at h
  · simp at h
  · rename_i c t hquote _ hslash hend ht
    split at h
    · simp at h
    · rename_i hcontrol
      simp only [Except.ok.injEq, Prod.mk.injEq] at h
      obtain ⟨rfl, rfl⟩ := h
      refine .inr ⟨c, [c], rfl, piece_plain ?_ ?_ (Nat.le_of_not_lt hcontrol), took_drop_one ht⟩
      · rintro rfl
        exact hquote rfl
      · rintro rfl
        cases t with
        | nil => exact hend rfl rfl
        | cons d t => exact hslash d t rfl rfl

theorem characters_sound {left : Nat} {s rest : Slice} {cs : List Char}
    (h : characters left s = .ok (cs, rest)) :
    ∃ content, Contents content (units cs) ∧ Took s (content ++ ['"']) rest := by
  induction left generalizing s cs with
  | zero => simp [characters] at h
  | succ left ih =>
      rw [characters, bind_eq_ok_iff] at h
      obtain ⟨⟨c?, s₁⟩, hc, h⟩ := h
      rcases character_sound hc with ⟨rfl, htook⟩ | ⟨c, piece, rfl, hpiece, htook⟩
      · simp only [pure, Except.pure, Except.ok.injEq, Prod.mk.injEq] at h
        obtain ⟨rfl, rfl⟩ := h
        exact ⟨[], .nil, htook⟩
      · obtain ⟨cs', hcs, rfl⟩ := (made_eq_ok_iff fun cs _ => c :: cs).1 h
        obtain ⟨content, hcontent, htook'⟩ := ih hcs
        refine ⟨piece ++ content, hpiece hcontent, ?_⟩
        rw [List.append_assoc]
        exact htook.trans htook'

/-- **Soundness** of strings: what is read behind an opening quote is the rest of a literal. -/
theorem stringRest_sound {s rest : Slice} {value : String} (hquote : s.text.head? = some '"')
    (h : stringRest (s.drop 1) = .ok (value, rest)) :
    ∃ cs, Literal cs value ∧ Took s cs rest := by
  obtain ⟨t, ht⟩ := List.head?_eq_some_iff.1 hquote
  obtain ⟨cs, hcs, rfl⟩ := (made_eq_ok_iff fun cs _ => String.ofList cs).1 h
  obtain ⟨content, hcontent, htook⟩ := characters_sound hcs
  have hliteral := Literal.intro hcontent
  rw [decodeLossy_units] at hliteral
  exact ⟨_, hliteral, (took_drop_one ht).trans htook⟩

/-! ## printed strings -/

/-- Digits of the grammar all have a value. -/
theorem mapM_of_hexDigits {v u : Nat} {ds : List Char} (h : HexDigits v ds u) :
    ∃ xs, ds.mapM hexDigit? = some xs ∧ xs.foldl (fun n d => n * 16 + d) v = u := by
  induction h with
  | nil => exact ⟨[], rfl, rfl⟩
  | @cons v x u c ds hdigit _ ih =>
      obtain ⟨xs, hxs, hfold⟩ := ih
      refine ⟨x :: xs, ?_, hfold⟩
      rw [List.mapM_cons, hexDigit?_eq_some_iff.2 hdigit, hxs]
      rfl

theorem hexDigits_complete {s rest : Slice} {ds : List Char} {u : Nat} (hlength : ds.length = 4)
    (h : HexDigits 0 ds u) (htook : Took s ds rest) : hexDigits s = .ok (u, rest) := by
  obtain ⟨xs, hxs, rfl⟩ := mapM_of_hexDigits h
  have hbytes : ¬ byteLength s.text < 4 := by
    rw [htook.text, byteLength_append, (hexDigits_of_mapM hxs 0).2]
    omega
  have htake : s.text.take 4 = ds := by rw [htook.text, ← hlength, List.take_left]
  rw [hexDigits, if_neg hbytes, htake, hxs, ← htook.drop_length, hlength]

/-- **A printed character** is read back, whether it is escaped or not. -/
theorem character_escaped {c : Char} {s rest : Slice} (htook : Took s (escaped c) rest) :
    character s = .ok (some c, rest) := by
  rcases escaped_cases c with ⟨e, hescaped, he⟩ | ⟨hcontrol, hescaped⟩ |
    ⟨hescaped, hquote, hslash, hplain⟩
  · rw [hescaped] at htook
    have hletter := ne_of_shortEscape he
    simp [character, htook.text, shortEscape?_eq_some_iff.2 he, ← htook.drop_length]
  · rw [hescaped] at htook
    have htook' : Took s (['\\', 'u'] ++
        ['0', '0', hexChar (c.toNat / 16), hexChar (c.toNat % 16)]) rest := htook
    obtain ⟨s₂, tletter, tdigits, -⟩ := htook'.split
    have hdrop : s.drop 2 = s₂ := tletter.drop_length
    have hread := hexDigits_complete rfl (hexDigits_hexChar (by omega)) tdigits
    have hunits := not_surrogate_toNat c
    simp [character, tletter.text, numbered, hdrop, hread, hunits, bind, Except.bind, pure,
      Except.pure]
  · rw [hescaped] at htook
    simp [character, htook.text, hslash, Nat.not_lt_of_le hplain, ← htook.drop_length]

theorem characters_escaped {cs : List Char} {left : Nat} {s rest : Slice}
    (htook : Took s (cs.flatMap escaped ++ ['"']) rest) (hleft : cs.length < left) :
    characters left s = .ok (cs, rest) := by
  induction cs generalizing left s with
  | nil =>
      obtain ⟨left, rfl⟩ := Nat.exists_eq_succ_of_ne_zero (Nat.ne_of_gt hleft)
      rw [characters, character, htook.text]
      simp [bind, Except.bind, pure, Except.pure, htook.drop_one]
  | cons c cs ih =>
      obtain ⟨left, rfl⟩ := Nat.exists_eq_succ_of_ne_zero (Nat.ne_zero_of_lt hleft)
      rw [List.flatMap_cons, List.append_assoc] at htook
      obtain ⟨s₁, tfirst, trest, -⟩ := htook.split
      have hrest := ih trest (Nat.lt_of_succ_lt_succ hleft)
      simp only [characters, character_escaped tfirst, hrest, bind, Except.bind]
      rfl

theorem length_le_flatMap_escaped (cs : List Char) : cs.length ≤ (cs.flatMap escaped).length := by
  induction cs with
  | nil => exact Nat.le_refl 0
  | cons c cs ih =>
      have hpos : 0 < (escaped c).length := by
        rcases escaped_cases c with ⟨e, h, -⟩ | ⟨-, h⟩ | ⟨h, -⟩ <;> simp [h]
      rw [List.flatMap_cons, List.length_append, List.length_cons]
      omega

/-- **A printed string** is read back. -/
theorem stringRest_quoted {value : String} {s rest : Slice} (htook : Took s (quoted value) rest) :
    stringRest (s.drop 1) = .ok (value, rest) := by
  have hcontent : Took (s.drop 1) (value.toList.flatMap escaped ++ ['"']) rest := htook.behind
  have hleft : value.toList.length < (s.drop 1).text.length + 1 := by
    have hlength := length_le_flatMap_escaped value.toList
    rw [hcontent.text, List.length_append, List.length_append]
    omega
  simp only [stringRest, characters_escaped hcontent hleft, bind, Except.bind, String.ofList_toList]
  rfl

/-! ## numbers -/

theorem wholePart_sound {s rest : Slice} {cs : List Char} (h : wholePart s = .ok (cs, rest)) :
    Whole cs ∧ Took s cs rest := by
  unfold wholePart at h
  split at h
  · simp at h
  · rename_i t ht
    split at h
    · simp at h
    · simp only [Except.ok.injEq, Prod.mk.injEq] at h
      obtain ⟨rfl, rfl⟩ := h
      exact ⟨.zero, took_drop_one ht⟩
  · rename_i c t hzero ht
    split at h
    · rename_i hc
      simp only [Except.ok.injEq, Prod.mk.injEq] at h
      obtain ⟨rfl, rfl⟩ := h
      have hspan : (s.span Char.isDigit).1.text = c :: t.takeWhile Char.isDigit := by
        rw [span, ht, List.takeWhile_cons_of_pos hc]
      have hdigits : Digits (s.span Char.isDigit).1.text :=
        ⟨by rw [hspan]; exact List.cons_ne_nil _ _, all_span Char.isDigit s⟩
      refine ⟨.digits hdigits ?_, took_span Char.isDigit s⟩
      rw [hspan, List.head?_cons]
      rintro ⟨⟩
      exact hzero rfl
    · simp at h

theorem fractionPart_sound {s rest : Slice} {ds : List Char}
    (h : fractionPart s = .ok (ds, rest)) : ∃ cs, Fraction cs ∧ Took s cs rest := by
  unfold fractionPart at h
  split at h
  · rename_i t ht
    dsimp only at h
    split at h
    · simp at h
    · rename_i hne
      simp only [Except.ok.injEq, Prod.mk.injEq] at h
      obtain ⟨rfl, rfl⟩ := h
      have hdigits : Digits ((s.drop 1).span Char.isDigit).1.text :=
        ⟨by simpa using hne, all_span Char.isDigit _⟩
      exact ⟨_, .some hdigits, (took_drop_one ht).trans (took_span Char.isDigit _)⟩
  · simp only [Except.ok.injEq, Prod.mk.injEq] at h
    obtain ⟨rfl, rfl⟩ := h
    exact ⟨[], .none, took_nil _⟩

/-- A sign that may be missing. -/
theorem sign_sound (s : Slice) : ∃ sign, (sign = [] ∨ sign = ['+'] ∨ sign = ['-']) ∧
    Took s sign (if s.text.head? = some '-' || s.text.head? = some '+' then s.drop 1 else s) := by
  split
  · rename_i hhead
    simp only [Bool.or_eq_true, decide_eq_true_eq] at hhead
    rcases hhead with hhead | hhead
    · obtain ⟨t, ht⟩ := List.head?_eq_some_iff.1 hhead
      exact ⟨['-'], .inr (.inr rfl), took_drop_one ht⟩
    · obtain ⟨t, ht⟩ := List.head?_eq_some_iff.1 hhead
      exact ⟨['+'], .inr (.inl rfl), took_drop_one ht⟩
  · exact ⟨[], .inl rfl, took_nil s⟩

theorem exponentPart_sound {s rest : Slice} {e : Option (Bool × List Char)}
    (h : exponentPart s = .ok (e, rest)) : ∃ cs, Exponent cs ∧ Took s cs rest := by
  unfold exponentPart at h
  split at h
  · rename_i c t ht
    split at h
    · rename_i hmark
      obtain ⟨sign, hsign, tsign⟩ := sign_sound (s.drop 1)
      dsimp only at h
      generalize (if (s.drop 1).text.head? = some '-' || (s.drop 1).text.head? = some '+' then
        (s.drop 1).drop 1 else s.drop 1) = s₁ at h tsign
      split at h
      · simp at h
      · rename_i hne
        simp only [Except.ok.injEq, Prod.mk.injEq] at h
        obtain ⟨rfl, rfl⟩ := h
        have hdigits : Digits (s₁.span Char.isDigit).1.text :=
          ⟨by simpa using hne, all_span Char.isDigit s₁⟩
        exact ⟨_, .some (by simpa using hmark) hsign hdigits,
          (took_drop_one ht).trans (tsign.trans (took_span Char.isDigit s₁))⟩
    · simp only [Except.ok.injEq, Prod.mk.injEq] at h
      obtain ⟨rfl, rfl⟩ := h
      exact ⟨[], .none, took_nil _⟩
  · simp only [Except.ok.injEq, Prod.mk.injEq] at h
    obtain ⟨rfl, rfl⟩ := h
    exact ⟨[], .none, took_nil _⟩

/-- **Soundness** of numbers: what is read behind a sign, or without one, is the rest of a number.
-/
theorem numberRest_sound {negative : Bool} {s rest : Slice} {n : Number}
    (h : numberRest negative s = .ok (n, rest)) :
    ∃ cs, (∀ sign, sign = [] ∨ sign = ['-'] → Numeral (sign ++ cs)) ∧ Took s cs rest := by
  simp only [numberRest, bind_eq_ok_iff] at h
  obtain ⟨⟨whole, s₁⟩, h₁, ⟨fraction, s₂⟩, h₂, ⟨exponent, s₃⟩, h₃, h⟩ := h
  obtain ⟨hwhole, t₁⟩ := wholePart_sound h₁
  obtain ⟨fs, hfraction, t₂⟩ := fractionPart_sound h₂
  obtain ⟨es, hexponent, t₃⟩ := exponentPart_sound h₃
  dsimp only at h
  split at h
  · simp only [pure, Except.pure, Except.ok.injEq, Prod.mk.injEq] at h
    obtain ⟨rfl, rfl⟩ := h
    refine ⟨whole ++ (fs ++ es), ?_, t₁.trans (t₂.trans t₃)⟩
    intro sign hsign
    have hnumeral := Numeral.intro hsign hwhole hfraction hexponent
    rwa [List.append_assoc, List.append_assoc] at hnumeral
  · simp at h

end LocaleAudit.Config
