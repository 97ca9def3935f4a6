import LocaleAudit.Json.Printer
import LocaleAudit.Proofs.Json.Literal
import Mathlib.Algebra.Group.Int.Defs
import Mathlib.Algebra.Group.Nat.Defs
import Mathlib.Data.List.TakeWhile

/-!
# LocaleAudit.Proofs.Json.Printer

What is printed for the smallest parts of a value, against the grammar.

* `literal_quoted` — a string in quotes is a literal for the string;
* `numeral_text_whole` — the text of a whole number is a number of the grammar;
* `ofText?_whole` — a whole number of 64 bits is read back.
-/

namespace LocaleAudit.Json

open Text Text.Utf16 Decimal Grammar

/-! ## strings -/

theorem hexDigit_hexChar {n : Nat} (h : n < 16) : HexDigit (hexChar n) n := by
  have htable : ∀ n < 16, HexDigit (hexChar n) n := by decide
  exact htable n h

/-- The last two digits of an escape by number. -/
theorem hexDigits_hexChar {n : Nat} (h : n < 256) :
    HexDigits 0 ['0', '0', hexChar (n / 16), hexChar (n % 16)] n := by
  have hzero : HexDigit '0' 0 := by decide
  have hhigh : HexDigit (hexChar (n / 16)) (n / 16) := hexDigit_hexChar (by omega)
  have hlow : HexDigit (hexChar (n % 16)) (n % 16) := hexDigit_hexChar (by omega)
  have hdigits : HexDigits 0 ['0', '0', hexChar (n / 16), hexChar (n % 16)]
      ((((0 * 16 + 0) * 16 + 0) * 16 + n / 16) * 16 + n % 16) :=
    .cons hzero (.cons hzero (.cons hhigh (.cons hlow .nil)))
  have hvalue : (((0 * 16 + 0) * 16 + 0) * 16 + n / 16) * 16 + n % 16 = n := by omega
  rwa [hvalue] at hdigits

/-- The ways of writing a character in a string. -/
theorem escaped_cases (c : Char) :
    (∃ e, escaped c = ['\\', e] ∧ (e, c) ∈ shortEscapes) ∨
    (c.toNat < 0x20 ∧
      escaped c = ['\\', 'u', '0', '0', hexChar (c.toNat / 16), hexChar (c.toNat % 16)]) ∨
    (escaped c = [c] ∧ c ≠ '"' ∧ c ≠ '\\' ∧ 0x20 ≤ c.toNat) := by
  by_cases hshort : c ∈ ['"', '\\', '\x08', '\x0c', '\n', '\r', '\t']
  · simp only [List.mem_cons, List.not_mem_nil, or_false] at hshort
    rcases hshort with rfl | rfl | rfl | rfl | rfl | rfl | rfl <;> exact .inl ⟨_, rfl, by decide⟩
  · simp only [List.mem_cons, List.not_mem_nil, or_false, not_or] at hshort
    obtain ⟨hquote, hslash, hb, hf, hn, hr, ht⟩ := hshort
    rw [escaped, if_neg hquote, if_neg hslash, if_neg hb, if_neg hf, if_neg hn, if_neg hr,
      if_neg ht]
    by_cases hcontrol : c.toNat < 0x20
    · exact .inr (.inl ⟨hcontrol, if_pos hcontrol⟩)
    · exact .inr (.inr ⟨if_neg hcontrol, hquote, hslash, Nat.le_of_not_lt hcontrol⟩)

/-- A character in a string stands for its own units, whether it is escaped or not. -/
theorem contents_escaped (c : Char) {cs : List Char} {us : List Nat} (h : Contents cs us) :
    Contents (escaped c ++ cs) (unitsOf c.toNat ++ us) := by
  rcases escaped_cases c with ⟨e, hescaped, he⟩ | ⟨hcontrol, hescaped⟩ |
    ⟨hescaped, hquote, hslash, hplain⟩
  · rw [hescaped, unitsOf_of_shortEscape he]
    exact .short he h
  · have hunits : unitsOf c.toNat = [c.toNat] := if_pos (by omega)
    rw [hescaped, hunits]
    exact .unicode rfl (hexDigits_hexChar (by omega)) h
  · rw [hescaped]
    exact .plain hquote hslash hplain h

theorem contents_flatMap_escaped (cs : List Char) : Contents (cs.flatMap escaped) (units cs) := by
  induction cs with
  | nil => exact .nil
  | cons c cs ih => exact contents_escaped c ih

/-- **A string in quotes** is a literal for the string. -/
theorem literal_quoted (s : String) : Literal (quoted s) s := by
  have hliteral := Literal.intro (contents_flatMap_escaped s.toList)
  rwa [decodeLossy_units, String.ofList_toList] at hliteral

/-! ## whole numbers -/

theorem digitsOf_lt {n : Nat} (h : n < 10) : digitsOf n = [n.digitChar] :=
  Nat.toDigits_of_lt_base h

theorem digitsOf_ge {n : Nat} (h : 10 ≤ n) :
    digitsOf n = digitsOf (n / 10) ++ [(n % 10).digitChar] :=
  Nat.toDigits_of_base_le (by decide) h

/-- Induction over the digits of a number. -/
@[elab_as_elim]
theorem digits_induction {motive : Nat → Prop} (digit : ∀ n < 10, motive n)
    (append : ∀ n, 10 ≤ n → motive (n / 10) → motive n) (n : Nat) : motive n := by
  induction n using Nat.strongRecOn with
  | ind n ih =>
      by_cases h : n < 10
      · exact digit n h
      · exact append n (by omega) (ih (n / 10) (by omega))

theorem digits_digitsOf (n : Nat) : Digits (digitsOf n) :=
  ⟨List.ne_nil_of_length_pos Nat.length_toDigits_pos,
    fun _ hc => Nat.isDigit_of_mem_toDigits (by decide) (by decide) hc⟩

/-- The digits of a number do not start with a zero, unless it is zero. -/
theorem head?_digitsOf {n : Nat} (h : 0 < n) : (digitsOf n).head? ≠ some '0' := by
  induction n using digits_induction with
  | digit n hn =>
      rw [digitsOf_lt hn, List.head?_cons, Ne, Option.some.injEq, Nat.digitChar_eq_zero]
      exact Nat.ne_of_gt h
  | append n hn ih =>
      obtain ⟨c, cs, hcs⟩ := List.exists_cons_of_ne_nil (digits_digitsOf (n / 10)).1
      have hhead := ih (by omega)
      rw [digitsOf_ge hn, hcs, List.cons_append, List.head?_cons]
      rwa [hcs, List.head?_cons] at hhead

theorem whole_digitsOf (n : Nat) : Whole (digitsOf n) := by
  rcases Nat.eq_zero_or_pos n with rfl | h
  · exact .zero
  · exact .digits (digits_digitsOf n) (head?_digitsOf h)

/-- **The text of a whole number** is a number of the grammar. -/
theorem numeral_text_whole (value : Int) : Numeral (Number.whole value).text := by
  have hsign : (if value < 0 then ['-'] else []) = [] ∨
      (if value < 0 then ['-'] else []) = ['-'] := by
    split
    · exact .inr rfl
    · exact .inl rfl
  have hnumeral := Numeral.intro hsign (whole_digitsOf value.natAbs) .none .none
  rwa [List.append_nil, List.append_nil] at hnumeral

/-- The digits of a number that is not too large are all gathered. -/
theorem gather_digitsOf {n : Nat} (h : n ≤ Number.largest) (cs : List Char) :
    Number.gather 0 (digitsOf n ++ cs) = Number.gather n cs := by
  have hstep {m d : Nat} (hd : d < 10) (hle : m * 10 + d ≤ Number.largest) (cs : List Char) :
      Number.gather m (d.digitChar :: cs) = Number.gather (m * 10 + d) cs := by
    have hdigit : d.digitChar.toNat - '0'.toNat = d := Nat.toNat_digitChar_sub_48_of_lt_ten hd
    rw [Number.gather, hdigit]
    exact if_pos hle
  induction n using digits_induction generalizing cs with
  | digit n hn =>
      rw [digitsOf_lt hn, List.singleton_append, hstep hn (by omega), Nat.zero_mul, Nat.zero_add]
  | append n hn ih =>
      rw [digitsOf_ge hn, List.append_assoc, List.singleton_append, ih (by omega),
        hstep (Nat.mod_lt n (by decide)) (by omega), Nat.div_add_mod']

/-- A text of digits, perhaps with a sign, has no other parts. -/
theorem ofText?_digits {ds : List Char} (h : Digits ds) (negative : Bool) :
    Number.ofText? ((if negative then ['-'] else []) ++ ds) =
      Number.ofParts? negative ds [] none := by
  have htake : ds.takeWhile Char.isDigit = ds := List.takeWhile_eq_self_iff.2 h.2
  have hdrop : ds.dropWhile Char.isDigit = [] := List.dropWhile_eq_nil_iff.2 h.2
  cases negative with
  | true => simp [Number.ofText?, htake, hdrop]
  | false =>
      obtain ⟨c, cs, rfl⟩ := List.exists_cons_of_ne_nil h.1
      have hc : c ≠ '-' := by
        rintro rfl
        exact absurd (h.2 '-' List.mem_cons_self) (by decide)
      simp [Number.ofText?, htake, hdrop, hc]

theorem ofParts?_digitsOf {negative : Bool} {n : Nat} (hle : n ≤ Number.largest)
    (hnegative : negative = true → 0 < n ∧ n ≤ 2 ^ 63) :
    Number.ofParts? negative (digitsOf n) [] none =
      some (.whole (if negative then -n else n)) := by
  have hgather := gather_digitsOf hle []
  rw [List.append_nil, Number.gather] at hgather
  have hsigned : (!negative || (decide (0 < n) && decide (n ≤ 1 <<< 63))) = true := by
    cases negative with
    | true =>
        obtain ⟨hpos, hsmall⟩ : 0 < n ∧ n ≤ 1 <<< 63 := hnegative rfl
        rw [decide_eq_true hpos, decide_eq_true hsmall]
        rfl
    | false => rfl
  rw [Number.ofParts?, hgather]
  exact if_pos hsigned

/-- **A whole number of 64 bits**, with a sign or without, is read back from its text. -/
theorem ofText?_whole {value : Int} (hlo : -2 ^ 63 ≤ value) (hhi : value < 2 ^ 64) :
    Number.ofText? (Number.whole value).text = some (.whole value) := by
  have hlargest : Number.largest = 2 ^ 64 - 1 := rfl
  have htext := ofText?_digits (digits_digitsOf value.natAbs) (decide (value < 0))
  rw [ofParts?_digitsOf (by omega) (by simp only [decide_eq_true_eq]; omega)] at htext
  have hvalue : (if decide (value < 0) = true then -(value.natAbs : Int) else value.natAbs) =
      value := by
    simp only [decide_eq_true_eq]
    split <;> omega
  rw [hvalue] at htext
  simpa [Number.text] using htext

end LocaleAudit.Json
