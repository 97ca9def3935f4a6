import LocaleAudit.Text.Category

/-!
# LocaleAudit.Proofs.Text.Category

How the classes of characters lie to each other.

* `isWordChar_of_isBlank` — a blank is no character of a word.
-/

namespace LocaleAudit.Text

/-- The code points of the blanks. -/
def blankCodes : List Nat :=
  [0x9, 0xa, 0xb, 0xc, 0xd, 0x20, 0x85, 0xa0, 0x1680, 0x2000, 0x2001, 0x2002, 0x2003, 0x2004,
   0x2005, 0x2006, 0x2007, 0x2008, 0x2009, 0x200a, 0x2028, 0x2029, 0x202f, 0x205f, 0x3000]

theorem mem_blankCodes {c : Char} (h : isBlank c = true) : c.toNat ∈ blankCodes := by
  have hspace : c = ' ' ↔ c.toNat = 0x20 := by rw [← Char.toNat_inj]; rfl
  simp only [isBlank, Bool.or_eq_true, Bool.and_eq_true, decide_eq_true_eq, beq_iff_eq, hspace] at h
  simp only [blankCodes, List.mem_cons, List.not_mem_nil, or_false]
  omega

theorem blank_nil : ∀ c ∈ [], isBlank c = true := List.forall_mem_nil _

theorem blank_space : ∀ c ∈ [' '], isBlank c = true := List.forall_mem_singleton.2 rfl

theorem blank_newline : ∀ c ∈ ['\n'], isBlank c = true := List.forall_mem_singleton.2 rfl

/-- A blank is no character of a word. -/
theorem isWordChar_of_isBlank {c : Char} (h : isBlank c = true) : isWordChar c = false := by
  have hall : ∀ n ∈ blankCodes, isWordChar (Char.ofNat n) = false := by decide +kernel
  have hc := hall c.toNat (mem_blankCodes h)
  rwa [Char.ofNat_toNat] at hc

end LocaleAudit.Text
