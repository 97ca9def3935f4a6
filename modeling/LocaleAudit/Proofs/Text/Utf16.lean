import LocaleAudit.Text.Utf16

/-!
# LocaleAudit.Proofs.Text.Utf16

Lossy decoding of UTF-16, one code unit or one surrogate pair at a time.

* `decodeLossy_unitsOf` — the units of a character decode to it, whatever follows;
* `decodeLossy_units` — the units of a text decode to it;
* `units_decodeLossy` — what is decoded has the units that were there, except the halves of
  surrogate pairs without their other halves.
-/

namespace LocaleAudit.Text.Utf16

/-! ## kinds of units -/

theorem not_isLow_of_isHigh {u : Nat} (h : isHigh u = true) : isLow u = false := by
  simp only [isHigh, isLow, Bool.and_eq_true, decide_eq_true_eq, Bool.and_eq_false_iff,
    decide_eq_false_iff_not] at *
  omega

theorem not_isHigh_of_isLow {u : Nat} (h : isLow u = true) : isHigh u = false := by
  simp only [isHigh, isLow, Bool.and_eq_true, decide_eq_true_eq, Bool.and_eq_false_iff,
    decide_eq_false_iff_not] at *
  omega

theorem toNat_valid (c : Char) :
    c.toNat < 0xd800 ∨ (0xdfff < c.toNat ∧ c.toNat < 0x110000) := c.valid

theorem toNat_lt (c : Char) : c.toNat < 0x110000 := by
  have hvalid := toNat_valid c
  omega

/-- A character is no half of a surrogate pair. -/
theorem not_surrogate_toNat (c : Char) : isHigh c.toNat = false ∧ isLow c.toNat = false := by
  have hvalid := toNat_valid c
  simp only [isHigh, isLow, Bool.and_eq_false_iff, decide_eq_false_iff_not]
  omega

theorem toNat_ofNat {n : Nat} (h : n.isValidChar) : (Char.ofNat n).toNat = n := by
  rw [Char.ofNat, dif_pos h]
  rfl

/-- A unit that is no half of a surrogate pair is the only one of its character. -/
theorem unitsOf_ofNat {u : Nat} (hsmall : u < 0x10000) (hhigh : isHigh u = false)
    (hlow : isLow u = false) : unitsOf (Char.ofNat u).toNat = [u] := by
  simp only [isHigh, isLow, Bool.and_eq_false_iff, decide_eq_false_iff_not] at hhigh hlow
  have hvalid : u < 0xd800 ∨ (0xdfff < u ∧ u < 0x110000) := by omega
  rw [toNat_ofNat hvalid, unitsOf, if_pos hsmall]

/-- The units of the code point that a surrogate pair stands for are the pair. -/
theorem unitsOf_join {u v : Nat} (hhigh : isHigh u = true) (hlow : isLow v = true) :
    unitsOf (Char.ofNat (join u v)).toNat = [u, v] := by
  simp only [isHigh, isLow, Bool.and_eq_true, decide_eq_true_eq] at hhigh hlow
  have hjoin : join u v = 0x10000 + (u - 0xd800) * 0x400 + (v - 0xdc00) := rfl
  generalize join u v = n at hjoin
  have hvalid : n < 0xd800 ∨ (0xdfff < n ∧ n < 0x110000) := by omega
  have hlarge : ¬ n < 0x10000 := by omega
  have hfirst : 0xd800 + (n - 0x10000) / 0x400 = u := by omega
  have hsecond : 0xdc00 + (n - 0x10000) % 0x400 = v := by omega
  rw [toNat_ofNat hvalid, unitsOf, if_neg hlarge]
  dsimp only
  rw [hfirst, hsecond]

/-- The units of a character are code units. -/
theorem lt_of_mem_unitsOf (c : Char) {u : Nat} (h : u ∈ unitsOf c.toNat) : u < 0x10000 := by
  have hvalid := toNat_lt c
  rw [unitsOf] at h
  split at h
  · obtain rfl := List.mem_singleton.1 h
    assumption
  · simp only [List.mem_cons, List.not_mem_nil, or_false] at h
    omega

/-! ## decoding -/

@[simp] theorem decodeLossy_nil : decodeLossy [] = [] := rfl

theorem decodeLossy_plain {u : Nat} (us : List Nat) (hhigh : isHigh u = false)
    (hlow : isLow u = false) : decodeLossy (u :: us) = Char.ofNat u :: decodeLossy us := by
  cases us with
  | nil => simp [decodeLossy, decode, hhigh, hlow]
  | cons v us => simp [decodeLossy, decode, hhigh, hlow]

theorem decodeLossy_low {u : Nat} (us : List Nat) (hlow : isLow u = true) :
    decodeLossy (u :: us) = replacement :: decodeLossy us := by
  cases us with
  | nil => simp [decodeLossy, decode, hlow]
  | cons v us => simp [decodeLossy, decode, not_isHigh_of_isLow hlow, hlow]

theorem decodeLossy_pair {u v : Nat} (us : List Nat) (hhigh : isHigh u = true)
    (hlow : isLow v = true) :
    decodeLossy (u :: v :: us) = Char.ofNat (join u v) :: decodeLossy us := by
  have hpair : decode (u :: v :: us) = some (Char.ofNat (join u v)) :: decode us := by
    rw [decode, if_pos hhigh, if_pos hlow]
  rw [decodeLossy, hpair, List.map_cons, Option.getD_some, decodeLossy]

/-- The first half of a pair whose other half does not follow. -/
theorem decodeLossy_high {u : Nat} {us : List Nat} (hhigh : isHigh u = true)
    (hnext : ∀ v ∈ us.head?, isLow v = false) :
    decodeLossy (u :: us) = replacement :: decodeLossy us := by
  cases us with
  | nil => simp [decodeLossy, decode, hhigh]
  | cons v us =>
      have hv : isLow v = false := hnext v rfl
      simp [decodeLossy, decode, hhigh, hv]

/-- The first unit of a character does not complete a surrogate pair. -/
theorem head?_unitsOf_not_low (c : Char) (us : List Nat) :
    ∀ v ∈ (unitsOf c.toNat ++ us).head?, isLow v = false := by
  have hchar := not_surrogate_toNat c
  have hvalid := toNat_lt c
  intro v hv
  rw [unitsOf] at hv
  split at hv
  · simp only [List.cons_append, List.head?_cons, Option.mem_def, Option.some.injEq] at hv
    exact hv ▸ hchar.2
  · simp only [List.cons_append, List.head?_cons, Option.mem_def, Option.some.injEq] at hv
    refine not_isLow_of_isHigh ?_
    rw [← hv]
    simp only [isHigh, Bool.and_eq_true, decide_eq_true_eq]
    omega

/-- The two units of a code point outside the basic plane are a surrogate pair for it. -/
theorem join_unitsOf {n high low : Nat} (hlarge : 0x10000 ≤ n) (hvalid : n < 0x110000)
    (hhigh : high = 0xd800 + (n - 0x10000) / 0x400)
    (hlow : low = 0xdc00 + (n - 0x10000) % 0x400) :
    isHigh high = true ∧ isLow low = true ∧ join high low = n := by
  refine ⟨?_, ?_, ?_⟩
  · simp only [isHigh, Bool.and_eq_true, decide_eq_true_eq]
    omega
  · simp only [isLow, Bool.and_eq_true, decide_eq_true_eq]
    omega
  · show 0x10000 + (high - 0xd800) * 0x400 + (low - 0xdc00) = n
    omega

/-- **The units of a character** decode to it, whatever follows them. -/
theorem decodeLossy_unitsOf (c : Char) (us : List Nat) :
    decodeLossy (unitsOf c.toNat ++ us) = c :: decodeLossy us := by
  have hvalid := toNat_lt c
  by_cases hsmall : c.toNat < 0x10000
  · obtain ⟨hhigh, hlow⟩ := not_surrogate_toNat c
    rw [unitsOf, if_pos hsmall, List.singleton_append, decodeLossy_plain us hhigh hlow,
      Char.ofNat_toNat]
  · obtain ⟨hhigh, hlow, hjoin⟩ := join_unitsOf (by omega) hvalid rfl rfl
    rw [unitsOf, if_neg hsmall]
    dsimp only
    rw [List.cons_append, List.singleton_append, decodeLossy_pair us hhigh hlow, hjoin,
      Char.ofNat_toNat]

theorem units_cons (c : Char) (cs : List Char) :
    units (c :: cs) = unitsOf c.toNat ++ units cs := rfl

theorem decodeLossy_units (text : List Char) : decodeLossy (units text) = text := by
  induction text with
  | nil => rfl
  | cons c cs ih =>
      rw [units_cons, decodeLossy_unitsOf, ih]

/-! ## unit by unit -/

/-- Whether the unit at a place is half of a surrogate pair whose other half is not next to it. -/
def isLoneAt (us : List Nat) (i : Nat) : Bool :=
  (us[i]?.any isHigh && !us[i + 1]?.any isLow) ||
    (us[i]?.any isLow && !(0 < i && us[i - 1]?.any isHigh))

/-- Units of which each half of a surrogate pair without its other half is replaced, and nothing
else is. -/
def mended (us : List Nat) : List Nat :=
  us.mapIdx fun i u => if isLoneAt us i then replacement.toNat else u

/-- A unit in front matters to the first unit behind it alone, and only if the two are a pair. -/
theorem isLoneAt_cons_succ {u i : Nat} {us : List Nat}
    (h : i = 0 → isHigh u = true → ∀ v ∈ us.head?, isLow v = false) :
    isLoneAt (u :: us) (i + 1) = isLoneAt us i := by
  cases i with
  | zero =>
      cases us with
      | nil => rfl
      | cons v us =>
          have hpair : isLow v = true → isHigh u = false := by
            intro hlow
            rw [← Bool.not_eq_true]
            intro hhigh
            exact absurd (h rfl hhigh v rfl) (by simp [hlow])
          cases hlow : isLow v with
          | false => simp [isLoneAt, hlow]
          | true => simp [isLoneAt, hlow, hpair hlow]
  | succ i => simp [isLoneAt]

theorem mended_cons {u : Nat} {us : List Nat}
    (h : isHigh u = true → ∀ v ∈ us.head?, isLow v = false) :
    mended (u :: us) =
      (if isLoneAt (u :: us) 0 then replacement.toNat else u) :: mended us := by
  rw [mended, List.mapIdx_cons, mended]
  simp only [isLoneAt_cons_succ fun _ => h]

theorem mended_pair {u v : Nat} (us : List Nat) (hhigh : isHigh u = true) (hlow : isLow v = true) :
    mended (u :: v :: us) = u :: v :: mended us := by
  have hfirst : isLoneAt (u :: v :: us) 0 = false := by
    simp [isLoneAt, hhigh, hlow, not_isLow_of_isHigh hhigh]
  have hsecond : isLoneAt (u :: v :: us) (0 + 1) = false := by
    simp [isLoneAt, hhigh, hlow, not_isHigh_of_isLow hlow]
  have hrest (i : Nat) : isLoneAt (u :: v :: us) (i + 1 + 1) = isLoneAt us i := by
    rw [isLoneAt_cons_succ (by simp), isLoneAt_cons_succ (by simp [not_isHigh_of_isLow hlow])]
  rw [mended, List.mapIdx_cons, List.mapIdx_cons, mended]
  simp only [hfirst, hsecond, hrest, Bool.false_eq_true, if_false]

theorem units_replacement (cs : List Char) :
    units (replacement :: cs) = replacement.toNat :: units cs := rfl

theorem units_decodeLossy_cons {u : Nat} {us : List Nat} (hsmall : u < 0x10000)
    (h : isHigh u = true → ∀ v ∈ us.head?, isLow v = false) :
    units (decodeLossy (u :: us)) =
      (if isLoneAt (u :: us) 0 then replacement.toNat else u) :: units (decodeLossy us) := by
  have hat : isLoneAt (u :: us) 0 = (isHigh u || isLow u) := by
    cases hhigh : isHigh u with
    | false => simp [isLoneAt, hhigh]
    | true =>
        have hnext : us[0]?.any isLow = false := by
          rw [← List.head?_eq_getElem?]
          cases us with
          | nil => rfl
          | cons v us => exact h hhigh v rfl
        simp [isLoneAt, hhigh, hnext]
  rw [hat]
  cases hhigh : isHigh u with
  | true => rw [decodeLossy_high hhigh (h hhigh), units_replacement]; rfl
  | false =>
      cases hlow : isLow u with
      | true => rw [decodeLossy_low us hlow, units_replacement]; rfl
      | false =>
          rw [decodeLossy_plain us hhigh hlow, units_cons, unitsOf_ofNat hsmall hhigh hlow]
          rfl

/-- **Lossy decoding keeps every unit** but the halves without their other halves, and each of these
becomes one replacement character. -/
theorem units_decodeLossy {us : List Nat} (h : ∀ u ∈ us, u < 0x10000) :
    units (decodeLossy us) = mended us := by
  -- along the decoding: it takes a pair at once, and everything else unit by unit
  have single {u : Nat} {us : List Nat} (hsmall : u < 0x10000)
      (hapart : isHigh u = true → ∀ v ∈ us.head?, isLow v = false)
      (ih : units (decodeLossy us) = mended us) :
      units (decodeLossy (u :: us)) = mended (u :: us) := by
    rw [units_decodeLossy_cons hsmall hapart, mended_cons hapart, ih]
  induction us using decode.induct with
  | case1 => rfl
  | case2 u => exact single (h u List.mem_cons_self) (by simp) rfl
  | case3 u v us hhigh hlow ih =>
      have hrest := ih fun w hw => h w (List.mem_cons_of_mem _ (List.mem_cons_of_mem _ hw))
      rw [decodeLossy_pair us hhigh hlow, units_cons, unitsOf_join hhigh hlow, hrest,
        mended_pair us hhigh hlow]
      rfl
  | case4 u v us _ hlow ih =>
      exact single (h u List.mem_cons_self) (fun _ => by simpa using hlow)
        (ih fun w hw => h w (List.mem_cons_of_mem _ hw))
  | case5 u v us hhigh _ ih =>
      exact single (h u List.mem_cons_self) (fun hu => absurd hu hhigh)
        (ih fun w hw => h w (List.mem_cons_of_mem _ hw))
  | case6 u v us hhigh _ ih =>
      exact single (h u List.mem_cons_self) (fun hu => absurd hu hhigh)
        (ih fun w hw => h w (List.mem_cons_of_mem _ hw))

end LocaleAudit.Text.Utf16
