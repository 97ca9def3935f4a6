import LocaleAudit.Proofs.Json.Token
import LocaleAudit.Proofs.Text.Utf16
import Mathlib.Data.List.Basic

/-!
# LocaleAudit.Proofs.Json.Literal

The reader of string literals against the grammar.  What the reader takes are pieces of a content:
a character, a short escape, an escape by number, or two of these for a surrogate pair.  Behind the
first half of a pair the reader looks ahead, so what it makes of a piece depends on what follows,
while the units that a piece denotes do not; the text is hence settled by the whole content.

* `hexDigits_sound`, `characters_sound` — what is taken are digits, and pieces of a content;
* `numbered_complete`, `characters_complete` — a content is taken, and decoded;
* `contents_unique` — a content denotes one sequence of units;
* `stringRest_sound`, `stringRest_complete` — literals behind their opening quotes.
-/

namespace LocaleAudit.Json

open Text Text.Slice Text.Utf16 Grammar

/-! ## tables -/

theorem shortEscape?_eq_some_iff {c d : Char} :
    shortEscape? c = some d ↔ (c, d) ∈ shortEscapes := by
  unfold shortEscape?
  split <;> simp_all [shortEscapes, eq_comm]

/-- The characters that short escapes stand for are single units. -/
theorem unitsOf_of_shortEscape {c d : Char} (h : (c, d) ∈ shortEscapes) :
    unitsOf d.toNat = [d.toNat] := by
  simp only [shortEscapes, List.mem_cons, Prod.mk.injEq, List.not_mem_nil, or_false] at h
  rcases h with ⟨-, rfl⟩ | ⟨-, rfl⟩ | ⟨-, rfl⟩ | ⟨-, rfl⟩ | ⟨-, rfl⟩ | ⟨-, rfl⟩ | ⟨-, rfl⟩ |
    ⟨-, rfl⟩ <;> rfl

instance (c : Char) (x : Nat) : Decidable (HexDigit c x) :=
  inferInstanceAs (Decidable (_ ∨ _))

theorem hexDigit_of_hexDigit? {c : Char} {x : Nat} (h : hexDigit? c = some x) : HexDigit c x := by
  have hascii : c.toNat < 128 := by
    refine Nat.lt_of_not_le fun hlarge => ?_
    have hnot {d : Char} (hd : d.toNat < 128) : ¬ c ≤ d := fun hle =>
      Nat.not_lt_of_le hlarge (Nat.lt_of_le_of_lt hle hd)
    have hdigit : c.isDigit = false := by
      rw [← Bool.not_eq_true]
      intro hd
      have hle : c ≤ '9' := of_decide_eq_true (Bool.and_eq_true_iff.1 hd).2
      exact hnot (by decide) hle
    have hlower : ¬ c ≤ 'f' := hnot (by decide)
    have hupper : ¬ c ≤ 'F' := hnot (by decide)
    simp [hexDigit?, hlower, hupper, hdigit] at h
  have htable : ∀ n < 128, ∀ x ∈ hexDigit? (Char.ofNat n), HexDigit (Char.ofNat n) x := by decide
  have hc := htable c.toNat hascii
  rw [Char.ofNat_toNat] at hc
  exact hc x h

theorem hexDigit?_of_hexDigit {c : Char} {x : Nat} (h : HexDigit c x) : hexDigit? c = some x := by
  have hlower : ∀ p ∈ "0123456789abcdef".toList.zipIdx, hexDigit? p.1 = some p.2 := by decide
  have hupper : ∀ p ∈ "0123456789ABCDEF".toList.zipIdx, hexDigit? p.1 = some p.2 := by decide
  rcases h with h | h
  · exact hlower (c, x) (List.mem_zipIdx_iff_getElem?.2 h)
  · exact hupper (c, x) (List.mem_zipIdx_iff_getElem?.2 h)

theorem hexDigit?_eq_some_iff {c : Char} {x : Nat} : hexDigit? c = some x ↔ HexDigit c x :=
  ⟨hexDigit_of_hexDigit?, hexDigit?_of_hexDigit⟩

theorem ne_of_shortEscape {c d : Char} (h : (c, d) ∈ shortEscapes) : c ≠ 'u' := by
  rintro rfl
  revert h
  simp [shortEscapes]

/-! ## pieces -/

/-- A piece of a content, which denotes the same units whatever follows it. -/
def Piece (piece : List Char) (us : List Nat) : Prop :=
  ∀ ⦃cs : List Char⦄ ⦃vs : List Nat⦄, Contents cs vs → Contents (piece ++ cs) (us ++ vs)

theorem piece_plain {c : Char} (hquote : c ≠ '"') (hslash : c ≠ '\\') (hcontrol : 0x20 ≤ c.toNat) :
    Piece [c] (unitsOf c.toNat) := fun _ _ hcs => .plain hquote hslash hcontrol hcs

theorem piece_short {c d : Char} (h : (c, d) ∈ shortEscapes) :
    Piece ['\\', c] (unitsOf d.toNat) := by
  intro cs vs hcs
  rw [unitsOf_of_shortEscape h]
  exact .short h hcs

theorem piece_numbered {ds : List Char} {u : Nat} (hlength : ds.length = 4)
    (hdigits : HexDigits 0 ds u) : Piece ('\\' :: 'u' :: ds) [u] :=
  fun _ _ hcs => .unicode hlength hdigits hcs

theorem Piece.append {piece piece' : List Char} {us vs : List Nat} (h : Piece piece us)
    (h' : Piece piece' vs) : Piece (piece ++ piece') (us ++ vs) := by
  intro cs ws hcs
  rw [List.append_assoc, List.append_assoc]
  exact h (h' hcs)

theorem hexDigits_sound {left value u : Nat} {s rest : Slice}
    (h : hexDigits left value s = .ok (u, rest)) :
    ∃ ds, ds.length = left ∧ HexDigits value ds u ∧ Took s ds rest := by
  induction left generalizing value s with
  | zero =>
      simp only [hexDigits, Except.ok.injEq, Prod.mk.injEq] at h
      obtain ⟨rfl, rfl⟩ := h
      exact ⟨[], rfl, .nil, took_nil s⟩
  | succ left ih =>
      rw [hexDigits] at h
      split at h
      · rename_i x hx
        obtain ⟨c, hc, hdigit⟩ := Option.bind_eq_some_iff.1 hx
        obtain ⟨t, ht⟩ := List.head?_eq_some_iff.1 hc
        obtain ⟨ds, hlength, hdigits, htook⟩ := ih h
        exact ⟨c :: ds, by rw [List.length_cons, hlength],
          .cons (hexDigit?_eq_some_iff.1 hdigit) hdigits, (took_drop_one ht).trans htook⟩
      · exact absurd h missing_ne_ok

/-- An escape by number is a piece, or two if the first one is half of a surrogate pair. -/
theorem numbered_sound {s rest : Slice} {c : Char} (h : numbered s = .ok (c, rest)) :
    ∃ piece us, Piece ('\\' :: 'u' :: piece) us ∧ Took s piece rest := by
  rw [numbered, bind_eq_ok_iff] at h
  obtain ⟨⟨u, s₁⟩, hunit, h⟩ := h
  obtain ⟨ds, hlength, hdigits, tdigits⟩ := hexDigits_sound hunit
  have hfirst := piece_numbered hlength hdigits
  dsimp only at h
  split at h
  · rename_i ahead hahead
    have hstrip : s₁.strip? ['\\', 'u'] = some ahead := (Option.ite_none_right_eq_some.1 hahead).2
    rw [bind_eq_ok_iff] at h
    obtain ⟨⟨v, s₂⟩, hunit', h⟩ := h
    obtain ⟨ds', hlength', hdigits', tdigits'⟩ := hexDigits_sound hunit'
    by_cases hlow : isLow v = true
    · simp only [hlow, if_true, pure, Except.pure, Except.ok.injEq, Prod.mk.injEq] at h
      obtain ⟨-, rfl⟩ := h
      exact ⟨_, _, hfirst.append (piece_numbered hlength' hdigits'),
        tdigits.trans ((strip?_eq_some_iff.1 hstrip).trans tdigits')⟩
    · simp only [hlow, Bool.false_eq_true, if_false, pure, Except.pure, Except.ok.injEq,
        Prod.mk.injEq] at h
      obtain ⟨-, rfl⟩ := h
      exact ⟨ds, _, hfirst, tdigits⟩
  · simp only [pure, Except.pure, Except.ok.injEq, Prod.mk.injEq] at h
    obtain ⟨-, rfl⟩ := h
    exact ⟨ds, _, hfirst, tdigits⟩

theorem escape_sound {s rest : Slice} {c : Char} (h : escape s = .ok (c, rest)) :
    ∃ piece us, Piece ('\\' :: piece) us ∧ Took s piece rest := by
  unfold escape at h
  split at h
  · contradiction
  · rename_i c' t ht
    split at h
    · rename_i hu
      subst hu
      obtain ⟨piece, us, hpiece, htook⟩ := numbered_sound h
      exact ⟨_, us, hpiece, (took_drop_one ht).trans htook⟩
    · split at h
      · rename_i d hd
        simp only [Except.ok.injEq, Prod.mk.injEq] at h
        obtain ⟨-, rfl⟩ := h
        exact ⟨_, _, piece_short (shortEscape?_eq_some_iff.1 hd), took_drop_one ht⟩
      · exact absurd h missing_ne_ok

/-- **Soundness**: what the reader takes is a content and the closing quote. -/
theorem characters_sound {left : Nat} {s rest : Slice} {out : List Char}
    (h : characters left s = .ok (out, rest)) :
    ∃ cs us, Contents cs us ∧ Took s (cs ++ ['"']) rest := by
  induction left generalizing s out with
  | zero => contradiction
  | succ left ih =>
      -- a piece in front of what the reader takes behind it
      have hpiece {s₁ : Slice} {piece : List Char} {us : List Nat} {out' : List Char}
          (hpiece : Piece piece us) (htook : Took s piece s₁)
          (hread : characters left s₁ = .ok (out', rest)) :
          ∃ cs us, Contents cs us ∧ Took s (cs ++ ['"']) rest := by
        obtain ⟨cs, vs, hcontent, htook'⟩ := ih hread
        refine ⟨_, _, hpiece hcontent, ?_⟩
        rw [List.append_assoc]
        exact htook.trans htook'
      unfold characters at h
      split at h
      · contradiction
      rename_i c t ht
      split at h
      · rename_i hquote
        subst hquote
        simp only [Except.ok.injEq, Prod.mk.injEq] at h
        obtain ⟨-, rfl⟩ := h
        exact ⟨[], [], .nil, took_drop_one ht⟩
      split at h
      · rename_i hslash
        subst hslash
        rw [bind_eq_ok_iff] at h
        obtain ⟨⟨d, s₁⟩, hescape, h⟩ := h
        obtain ⟨out', hread, -⟩ := (made_eq_ok_iff fun cs _ => d :: cs).1 h
        obtain ⟨piece, us, hescaped, htook⟩ := escape_sound hescape
        exact hpiece hescaped ((took_drop_one ht).trans htook) hread
      split at h
      · contradiction
      · rename_i hquote hslash hcontrol
        obtain ⟨out', hread, -⟩ := (made_eq_ok_iff fun cs _ => c :: cs).1 h
        have hplain := piece_plain hquote hslash (Nat.le_of_not_lt hcontrol)
        exact hpiece hplain (took_drop_one ht) hread

/-! ## decoding -/

/-- Half of a surrogate pair is no character. -/
theorem charOf_surrogate {u : Nat} (h : isHigh u = true ∨ isLow u = true) :
    charOf u = replacement := by
  refine if_neg fun hvalid => ?_
  simp only [isHigh, isLow, Bool.and_eq_true, decide_eq_true_eq, Nat.isValidChar] at h hvalid
  omega

theorem charOf_of_valid {n : Nat} (h : n.isValidChar) : charOf n = Char.ofNat n := if_pos h

/-- A unit that is not the first half of a pair is decoded alone, and so is a first half whose other
half does not follow. -/
theorem decodeLossy_cons {u : Nat} {us : List Nat} (hsmall : u < 0x10000)
    (hnext : isHigh u = true → ∀ v ∈ us.head?, isLow v = false) :
    decodeLossy (u :: us) = charOf u :: decodeLossy us := by
  cases hhigh : isHigh u with
  | true => rw [decodeLossy_high hhigh (hnext hhigh), charOf_surrogate (.inl hhigh)]
  | false =>
      cases hlow : isLow u with
      | true => rw [decodeLossy_low us hlow, charOf_surrogate (.inr hlow)]
      | false =>
          have hvalid : u.isValidChar := by
            simp only [isHigh, isLow, Bool.and_eq_false_iff, decide_eq_false_iff_not] at hhigh hlow
            simp only [Nat.isValidChar]
            omega
          rw [decodeLossy_plain us hhigh hlow, charOf_of_valid hvalid]

theorem decodeLossy_join {u v : Nat} (us : List Nat) (hhigh : isHigh u = true)
    (hlow : isLow v = true) :
    decodeLossy (u :: v :: us) = charOf (join u v) :: decodeLossy us := by
  have hvalid : (join u v).isValidChar := by
    simp only [isHigh, isLow, Bool.and_eq_true, decide_eq_true_eq] at hhigh hlow
    have hjoin : join u v = 0x10000 + (u - 0xd800) * 0x400 + (v - 0xdc00) := rfl
    generalize join u v = n at hjoin
    exact .inr (by omega)
  rw [decodeLossy_pair us hhigh hlow, charOf_of_valid hvalid]

/-! ## the units of a content -/

theorem hexDigit_unique {c : Char} {x y : Nat} (hx : HexDigit c x) (hy : HexDigit c y) : x = y := by
  rw [← hexDigit?_eq_some_iff] at hx hy
  exact Option.some.inj (hx.symm.trans hy)

theorem hexDigits_unique {v u w : Nat} {ds : List Char} (hu : HexDigits v ds u)
    (hw : HexDigits v ds w) : u = w := by
  induction hu with
  | nil =>
      cases hw with
      | nil => rfl
  | cons hdigit _ ih =>
      cases hw with
      | cons hdigit' hrest =>
          obtain rfl := hexDigit_unique hdigit hdigit'
          exact ih hrest

theorem lt_of_hexDigits {ds : List Char} {u : Nat} (hlength : ds.length = 4)
    (h : HexDigits 0 ds u) : u < 0x10000 := by
  have hdigit {c : Char} {x : Nat} (h : HexDigit c x) : x < 16 := by
    rcases h with h | h
    · exact (List.getElem?_eq_some_iff.1 h).1
    · exact (List.getElem?_eq_some_iff.1 h).1
  have hstep {v x n : Nat} (hv : v < n) (hx : x < 16) : v * 16 + x < n * 16 := by omega
  obtain ⟨a, b, c, d, rfl⟩ := List.length_eq_four.1 hlength
  obtain - | ⟨ha, - | ⟨hb, - | ⟨hc, - | ⟨hd, ⟨⟩⟩⟩⟩⟩ := h
  have hfirst := hstep (hstep Nat.zero_lt_one (hdigit ha)) (hdigit hb)
  exact hstep (hstep hfirst (hdigit hc)) (hdigit hd)

/-- **A content is read in one way**: a backslash starts an escape, and the character behind it
tells which one. -/
theorem contents_unique {cs : List Char} {us vs : List Nat} (hu : Contents cs us)
    (hv : Contents cs vs) : us = vs := by
  induction hu generalizing vs with
  | nil =>
      cases hv with
      | nil => rfl
  | plain _ hslash _ _ ih =>
      cases hv with
      | plain _ _ _ hrest => rw [ih hrest]
      | short => exact absurd rfl hslash
      | unicode => exact absurd rfl hslash
  | short hshort _ ih =>
      cases hv with
      | plain _ hslash => exact absurd rfl hslash
      | short hshort' hrest =>
          rw [← shortEscape?_eq_some_iff] at hshort hshort'
          obtain rfl := Option.some.inj (hshort.symm.trans hshort')
          rw [ih hrest]
      | unicode => exact absurd rfl (ne_of_shortEscape hshort)
  | @unicode ds cs u us hlength hdigits _ ih =>
      generalize hwhole : '\\' :: 'u' :: (ds ++ cs) = whole at hv
      cases hv with
      | nil => contradiction
      | plain _ hslash => exact absurd (List.cons.inj hwhole).1.symm hslash
      | short hshort =>
          have hsecond := (List.cons.inj (List.cons.inj hwhole).2).1
          exact absurd hsecond.symm (ne_of_shortEscape hshort)
      | unicode hlength' hdigits' hrest =>
          have hbehind := (List.cons.inj (List.cons.inj hwhole).2).2
          obtain ⟨rfl, rfl⟩ := List.append_inj hbehind (hlength.trans hlength'.symm)
          rw [hexDigits_unique hdigits hdigits', ih hrest]

/-- What a content denotes are code units. -/
theorem lt_of_contents {cs : List Char} {us : List Nat} (h : Contents cs us) :
    ∀ u ∈ us, u < 0x10000 := by
  induction h with
  | nil => simp
  | @plain c _ _ _ _ _ _ ih =>
      intro u hu
      rcases List.mem_append.1 hu with hu | hu
      · exact lt_of_mem_unitsOf c hu
      · exact ih u hu
  | @short _ d _ _ hshort _ ih =>
      refine List.forall_mem_cons.2 ⟨lt_of_mem_unitsOf d ?_, ih⟩
      rw [unitsOf_of_shortEscape hshort]
      exact List.mem_cons_self
  | unicode hlength hdigits _ ih =>
      exact List.forall_mem_cons.2 ⟨lt_of_hexDigits hlength hdigits, ih⟩

/-! ## completeness -/

theorem hexDigits_complete {value u : Nat} {ds : List Char} {s rest : Slice}
    (h : HexDigits value ds u) (htook : Took s ds rest) :
    hexDigits ds.length value s = .ok (u, rest) := by
  induction h generalizing s with
  | nil => rw [(took_nil s).eq htook, List.length_nil, hexDigits]
  | cons hdigit _ ih =>
      rw [List.length_cons, hexDigits, htook.text, List.cons_append, List.head?_cons,
        Option.bind_some, hexDigit?_eq_some_iff.2 hdigit]
      exact ih htook.behind

/-- Digits are read as the unit that they name. -/
theorem hexDigits_unit {u : Nat} {ds : List Char} {s rest : Slice} (hlength : ds.length = 4)
    (hdigits : HexDigits 0 ds u) (htook : Took s ds rest) :
    hexDigits 4 0 s = .ok (u, rest) :=
  hlength ▸ hexDigits_complete hdigits htook

/-- Without another escape by number behind it, an escape by number is read alone. -/
theorem numbered_alone {s r : Slice} {u : Nat} (hunit : hexDigits 4 0 s = .ok (u, r))
    (hstrip : r.strip? ['\\', 'u'] = none) : numbered s = .ok (charOf u, r) := by
  simp only [numbered, hunit, hstrip, bind, Except.bind, ite_self]
  rfl

/-- Of two escapes by number the second one is read with the first one if they are a pair. -/
theorem numbered_ahead {s r ahead r' : Slice} {u v : Nat} (hunit : hexDigits 4 0 s = .ok (u, r))
    (hstrip : r.strip? ['\\', 'u'] = some ahead) (hunit' : hexDigits 4 0 ahead = .ok (v, r')) :
    numbered s = .ok (if isHigh u && isLow v then (charOf (join u v), r') else (charOf u, r)) := by
  cases hhigh : isHigh u with
  | false => simp [numbered, hunit, hhigh, bind, Except.bind, pure, Except.pure]
  | true => simp [numbered, hunit, hhigh, hstrip, hunit', bind, Except.bind, pure, Except.pure]

/-- Only an escape by number looks like one, and only that names a second half of a surrogate
pair. -/
theorem numbered_or_not {cs : List Char} {us : List Nat} (h : Contents cs us) :
    ((∀ v ∈ us.head?, isLow v = false) ∧ ∀ t t', cs ++ '"' :: t ≠ '\\' :: 'u' :: t') ∨
      ∃ ds cs' v us', ds.length = 4 ∧ HexDigits 0 ds v ∧ Contents cs' us' ∧
        cs = '\\' :: 'u' :: (ds ++ cs') ∧ us = v :: us' := by
  cases h with
  | nil => exact .inl ⟨by simp, by simp⟩
  | @plain c _ us _ hslash _ _ => exact .inl ⟨head?_unitsOf_not_low c us, by simp [hslash]⟩
  | @short c d _ us hshort _ =>
      have hlow := head?_unitsOf_not_low d us
      rw [unitsOf_of_shortEscape hshort] at hlow
      exact .inl ⟨hlow, by simp [ne_of_shortEscape hshort]⟩
  | unicode hlength hdigits hcontent =>
      exact .inr ⟨_, _, _, _, hlength, hdigits, hcontent, rfl, rfl⟩

/-- **An escape by number in front of a content** is read with as much of the content as belongs to
it, and what is left is a content again. -/
theorem numbered_complete {s r rest : Slice} {ds cs : List Char} {u : Nat} {us : List Nat}
    (hlength : ds.length = 4) (hdigits : HexDigits 0 ds u) (htook : Took s ds r)
    (hcontent : Contents cs us) (hrest : Took r (cs ++ ['"']) rest) :
    ∃ c r' cs' us', numbered s = .ok (c, r') ∧ Contents cs' us' ∧ Took r' (cs' ++ ['"']) rest ∧
      cs'.length ≤ cs.length ∧ decodeLossy (u :: us) = c :: decodeLossy us' := by
  have hunit := hexDigits_unit hlength hdigits htook
  have hsmall := lt_of_hexDigits hlength hdigits
  -- what follows is the other half, or another escape by number, or none
  rcases numbered_or_not hcontent with
    ⟨hlow, hmark⟩ | ⟨ds', cs', v, us', hlength', hdigits', hcontent', rfl, rfl⟩
  · have hstrip : r.strip? ['\\', 'u'] = none := by
      rw [Option.eq_none_iff_forall_ne_some]
      intro ahead hahead
      have htext := (strip?_eq_some_iff.1 hahead).text
      rw [hrest.text, List.append_assoc] at htext
      exact hmark _ _ htext
    exact ⟨_, r, cs, us, numbered_alone hunit hstrip, hcontent, hrest, Nat.le_refl _,
      decodeLossy_cons hsmall fun _ => hlow⟩
  · have hrest' : Took r (['\\', 'u'] ++ (ds' ++ (cs' ++ ['"']))) rest := by simpa using hrest
    obtain ⟨ahead, tmark, hrest', -⟩ := hrest'.split
    obtain ⟨r', tdigits', hrest', -⟩ := hrest'.split
    have hread := numbered_ahead hunit (strip?_eq_some_iff.2 tmark)
      (hexDigits_unit hlength' hdigits' tdigits')
    by_cases hpair : isHigh u = true ∧ isLow v = true
    · obtain ⟨hhigh, hlow⟩ := hpair
      rw [hhigh, hlow] at hread
      exact ⟨_, r', cs', us', hread, hcontent', hrest', by simp; omega,
        decodeLossy_join us' hhigh hlow⟩
    · rw [if_neg (by simpa using hpair)] at hread
      refine ⟨_, r, _, _, hread, hcontent, hrest, Nat.le_refl _,
        decodeLossy_cons hsmall fun hhigh w hw => ?_⟩
      obtain rfl := Option.some.inj hw
      simpa [hhigh] using hpair

/-- **Completeness**: a content and a closing quote are taken, and the units are decoded. -/
theorem characters_complete {left : Nat} {s rest : Slice} {cs : List Char} {us : List Nat}
    (hcontent : Contents cs us) (htook : Took s (cs ++ ['"']) rest) (hleft : cs.length < left) :
    characters left s = .ok (decodeLossy us, rest) := by
  induction left generalizing s cs us with
  | zero => exact absurd hleft (Nat.not_lt_zero _)
  | succ left ih =>
      cases hcontent with
      | nil =>
          rw [characters, htook.text]
          simp [htook.drop_one]
      | @plain c cs us hquote hslash hcontrol hcontent =>
          have hread := ih hcontent htook.behind (Nat.lt_of_succ_lt_succ hleft)
          rw [decodeLossy_unitsOf, characters, htook.text]
          simp only [List.cons_append, hquote, hslash, Nat.not_lt_of_le hcontrol, if_false, hread,
            bind, Except.bind]
          rfl
      | @short c d cs us hshort hcontent =>
          have hread := ih hcontent htook.behind.behind (by simp at hleft; omega)
          have hescape : escape (s.drop 1) = .ok (d, (s.drop 1).drop 1) := by
            rw [escape, htook.behind.text]
            simp [ne_of_shortEscape hshort, shortEscape?_eq_some_iff.2 hshort]
          have hchar := decodeLossy_unitsOf d us
          rw [unitsOf_of_shortEscape hshort, List.singleton_append] at hchar
          rw [hchar, characters, htook.text]
          simp [hescape, hread, bind, Except.bind, pure, Except.pure]
      | @unicode ds cs u us hlength hdigits hcontent =>
          have hbehind : Took ((s.drop 1).drop 1) (ds ++ (cs ++ ['"'])) rest := by
            rw [← List.append_assoc]
            exact htook.behind.behind
          obtain ⟨r, tdigits, hrest, -⟩ := hbehind.split
          obtain ⟨c, r', cs', us', hread, hcontent', hrest', hlength', hdecode⟩ :=
            numbered_complete hlength hdigits tdigits hcontent hrest
          have hescape : escape (s.drop 1) = .ok (c, r') := by
            rw [escape, htook.behind.text]
            simpa using hread
          have hchars := ih hcontent' hrest' (by simp at hleft; omega)
          rw [hdecode, characters, htook.text]
          simp [hescape, hchars, bind, Except.bind, pure, Except.pure]

/-! ## literals -/

/-- What is read behind an opening quote is a content with its closing quote, and it is decoded. -/
theorem stringRest_eq_ok_iff {s rest : Slice} {value : String} :
    stringRest s = .ok (value, rest) ↔
      ∃ cs us, Contents cs us ∧ Took s (cs ++ ['"']) rest ∧
        value = String.ofList (decodeLossy us) := by
  have hlength {cs : List Char} (htook : Took s (cs ++ ['"']) rest) :
      cs.length < s.text.length + 1 := by
    rw [htook.text, List.length_append, List.length_append]
    omega
  rw [stringRest, made_eq_ok_iff fun out _ => String.ofList out]
  constructor
  · rintro ⟨out, hread, rfl⟩
    obtain ⟨cs, us, hcontent, htook⟩ := characters_sound hread
    rw [characters_complete hcontent htook (hlength htook)] at hread
    obtain ⟨rfl, -⟩ := Prod.mk.inj (Except.ok.inj hread)
    exact ⟨cs, us, hcontent, htook, rfl⟩
  · rintro ⟨cs, us, hcontent, htook, rfl⟩
    exact ⟨_, characters_complete hcontent htook (hlength htook), rfl⟩

/-- **Soundness** of literals: what is read behind an opening quote is the rest of a literal. -/
theorem stringRest_sound {s rest : Slice} {value : String} (hquote : s.text.head? = some '"')
    (h : stringRest (s.drop 1) = .ok (value, rest)) :
    ∃ cs, Literal cs value ∧ Took s cs rest := by
  obtain ⟨t, ht⟩ := List.head?_eq_some_iff.1 hquote
  obtain ⟨cs, us, hcontent, htook, rfl⟩ := stringRest_eq_ok_iff.1 h
  exact ⟨_, .intro hcontent, (took_drop_one ht).trans htook⟩

/-- **Completeness** of literals: a literal is read behind its opening quote. -/
theorem stringRest_complete {s rest : Slice} {cs : List Char} {value : String}
    (hliteral : Literal cs value) (htook : Took s cs rest) :
    stringRest (s.drop 1) = .ok (value, rest) := by
  cases hliteral with
  | intro hcontent => exact stringRest_eq_ok_iff.2 ⟨_, _, hcontent, htook.behind, rfl⟩

end LocaleAudit.Json
