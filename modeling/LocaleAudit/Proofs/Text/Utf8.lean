import LocaleAudit.Text.Lines
import Mathlib.Tactic.SplitIfs

/-!
# LocaleAudit.Proofs.Text.Utf8

The bytes of a text, and that their order is the order of strings.

* `utf8_eq_flatMap` — the bytes of a string, character by character;
* `lt_iff_utf8_lt` — a string is before another one exactly if its bytes are.
-/

namespace LocaleAudit.Text

/-- The UTF-8 bytes of a string. -/
def utf8 (s : String) : List UInt8 := s.toUTF8.data.toList

/-- The bytes of a string are those of its characters, one after the other. -/
theorem utf8_eq_flatMap (s : String) : utf8 s = s.toList.flatMap String.utf8EncodeChar := by
  rw [utf8, String.toUTF8_eq_toByteArray, ← String.utf8Encode_toList]
  simp [List.utf8Encode]

/-! ## order -/

private theorem ofNat_lt_ofNat {a b : Nat} (ha : a < 256) (hb : b < 256) :
    UInt8.ofNat a < UInt8.ofNat b ↔ a < b := by
  rw [UInt8.lt_iff_toNat_lt, UInt8.toNat_ofNat', UInt8.toNat_ofNat']
  omega

private theorem ofNat_eq_ofNat {a b : Nat} (ha : a < 256) (hb : b < 256) :
    UInt8.ofNat a = UInt8.ofNat b ↔ a = b := by
  rw [← UInt8.toNat_inj, UInt8.toNat_ofNat', UInt8.toNat_ofNat']
  omega

/-- The bytes of a character decide the order, whatever follows them. -/
theorem utf8EncodeChar_append_lt {c d : Char} (h : c < d) (xs ys : List UInt8) :
    String.utf8EncodeChar c ++ xs < String.utf8EncodeChar d ++ ys := by
  have hlt : c.val.toNat < d.val.toNat := h
  have hc : c.val.toNat < 0x110000 := by rcases c.valid with h | h <;> omega
  have hd : d.val.toNat < 0x110000 := by rcases d.valid with h | h <;> omega
  unfold String.utf8EncodeChar
  generalize c.val.toNat = m at *
  generalize d.val.toNat = n at *
  -- Digits to the base 64, so that equal leading bytes mean equal quotients.
  have div4096 (k : Nat) : k / 4096 = k / 64 / 64 := by omega
  have div262144 (k : Nat) : k / 262144 = k / 64 / 64 / 64 := by omega
  dsimp only
  rw [div262144, div262144, div4096, div4096]
  split_ifs <;>
    simp (disch := omega) only [List.cons_append, List.nil_append, List.cons_lt_cons_iff,
      ofNat_lt_ofNat, ofNat_eq_ofNat] <;> omega

private theorem flatMap_lt {cs ds : List Char} (h : cs < ds) :
    cs.flatMap String.utf8EncodeChar < ds.flatMap String.utf8EncodeChar := by
  induction h with
  | @nil d ds =>
      rw [List.flatMap_nil, List.flatMap_cons]
      cases hd : String.utf8EncodeChar d with
      | nil => exact absurd hd String.utf8EncodeChar_ne_nil
      | cons b bs => exact List.nil_lt_cons b _
  | rel h => exact utf8EncodeChar_append_lt h _ _
  | cons h ih => exact List.append_left_lt ih

/-- **The order of strings is the order of their bytes.** -/
theorem lt_iff_utf8_lt {s t : String} : s < t ↔ utf8 s < utf8 t := by
  have mono {s t : String} (h : s < t) : utf8 s < utf8 t := by
    rw [utf8_eq_flatMap, utf8_eq_flatMap]
    exact flatMap_lt h
  constructor
  · exact mono
  · intro h
    by_cases hlt : s < t
    · exact hlt
    by_cases heq : s = t
    · exact absurd (heq ▸ h) (List.lt_irrefl _)
    have hgt : t < s := Std.lt_of_le_of_ne (String.not_lt.1 hlt) (Ne.symm heq)
    exact absurd (mono hgt) (List.lt_asymm h)

end LocaleAudit.Text
