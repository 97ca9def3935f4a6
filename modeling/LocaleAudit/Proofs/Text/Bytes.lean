import LocaleAudit.Text.Lines

/-!
# LocaleAudit.Proofs.Text.Bytes

The bytes of a text.  Only the first byte of a character can begin a mark, so that a mark is found
in the bytes of a text at the places where it is found in the text.

* `fromUTF8?_bytes` — the bytes of a text are read back as the text;
* `prefix_drop_bytes_iff` — where a mark stands in the bytes of a text.
-/

namespace LocaleAudit.Text

/-- The UTF-8 bytes of a text. -/
def bytes (text : List Char) : List UInt8 := text.flatMap String.utf8EncodeChar

@[simp] theorem bytes_nil : bytes [] = [] := rfl

@[simp] theorem bytes_cons (c : Char) (cs : List Char) :
    bytes (c :: cs) = String.utf8EncodeChar c ++ bytes cs := List.flatMap_cons

@[simp] theorem bytes_append (xs ys : List Char) : bytes (xs ++ ys) = bytes xs ++ bytes ys :=
  List.flatMap_append

@[simp] theorem length_bytes (text : List Char) : (bytes text).length = byteLength text := by
  induction text with
  | nil => rfl
  | cons c cs ih =>
      rw [bytes_cons, List.length_append, String.length_utf8EncodeChar, ih, byteLength_cons]

theorem toByteArray_bytes (text : List Char) : (bytes text).toByteArray = text.utf8Encode := rfl

/-- **The bytes of a text** are read back as the text. -/
theorem fromUTF8?_bytes (text : List Char) :
    String.fromUTF8? (bytes text).toByteArray = some (String.ofList text) := by
  have hvalid : (bytes text).toByteArray.IsValidUTF8 := .intro text rfl
  rw [String.fromUTF8?, dif_pos hvalid]
  rfl

/-! ## marks -/

/-- What a text begins with in its bytes it begins with. -/
theorem prefix_of_prefix_bytes {mark text : List Char} (h : bytes mark <+: bytes text) :
    mark <+: text := by
  obtain ⟨rest, hrest⟩ := h
  refine List.isPrefix_of_utf8Encode_append_eq_utf8Encode rest.toByteArray ?_
  rw [← toByteArray_bytes, ← toByteArray_bytes, ← List.toByteArray_append, hrest]

/-- The first byte of a character stands where the character does. -/
theorem exists_of_isUTF8FirstByte {text : List Char} {i : Nat} {b : UInt8}
    (h : (bytes text)[i]? = some b) (hb : b.IsUTF8FirstByte) :
    ∃ before after, text = before ++ after ∧ byteLength before = i := by
  induction text generalizing i with
  | nil => contradiction
  | cons c cs ih =>
      rw [bytes_cons, List.getElem?_append] at h
      split at h
      · rename_i hi
        obtain ⟨_, rfl⟩ := List.getElem?_eq_some_iff.1 h
        exact ⟨[], c :: cs, rfl, (UInt8.isUTF8FirstByte_getElem_utf8EncodeChar.1 hb).symm⟩
      · rename_i hi
        obtain ⟨before, after, rfl, hbefore⟩ := ih h
        rw [String.length_utf8EncodeChar] at hi hbefore
        refine ⟨c :: before, after, rfl, ?_⟩
        rw [byteLength_cons, hbefore]
        omega

/-- **A mark stands in the bytes** of a text where it stands in the text. -/
theorem prefix_drop_bytes_iff {mark : List Char} (hne : mark ≠ []) {text : List Char} {i : Nat} :
    bytes mark <+: (bytes text).drop i ↔
      ∃ before after, text = before ++ mark ++ after ∧ byteLength before = i := by
  constructor
  · intro h
    obtain ⟨m, ms, rfl⟩ := List.exists_cons_of_ne_nil hne
    have hpos : 0 < (String.utf8EncodeChar m).length := by
      rw [String.length_utf8EncodeChar]
      exact m.utf8Size_pos
    have hfirst : (bytes text)[i]? = some (String.utf8EncodeChar m)[0] := by
      obtain ⟨rest, hrest⟩ := h
      rw [← Nat.add_zero i, ← List.getElem?_drop, ← hrest, bytes_cons, List.append_assoc,
        List.getElem?_append_left hpos, List.getElem?_eq_getElem hpos]
    obtain ⟨before, rest, rfl, rfl⟩ :=
      exists_of_isUTF8FirstByte hfirst UInt8.isUTF8FirstByte_getElem_zero_utf8EncodeChar
    rw [bytes_append, ← length_bytes, List.drop_left] at h
    obtain ⟨after, rfl⟩ := prefix_of_prefix_bytes h
    exact ⟨before, after, (List.append_assoc ..).symm, rfl⟩
  · rintro ⟨before, after, rfl, rfl⟩
    rw [List.append_assoc, bytes_append, ← length_bytes, List.drop_left, bytes_append]
    exact List.prefix_append _ _

end LocaleAudit.Text
