import LocaleAudit.Json.Parser
import LocaleAudit.Proofs.Json.Grammar
import LocaleAudit.Proofs.Text.Slice

/-!
# LocaleAudit.Proofs.Json.Token

The readers of blanks and numbers against the grammar.  Each reader has a soundness lemma, which
says that what it takes is derived, and a completeness lemma, which says that it takes what is
derived as long as what follows cannot be a part of it.

* `number_sound`, `number_complete` — numbers are taken as the grammar has them.
-/

namespace LocaleAudit.Json

open Text Text.Slice Grammar

/-- A sequence of readers succeeds with what its parts succeed with. -/
theorem bind_eq_ok_iff {ε α β : Type} {x : Except ε α} {f : α → Except ε β} {b : β} :
    x >>= f = .ok b ↔ ∃ a, x = .ok a ∧ f a = .ok b := by
  cases x with
  | error e => simp [bind, Except.bind]
  | ok a => simp [bind, Except.bind]

/-- What is made of something read is there if that is read, and the slice behind it is the same. -/
theorem made_eq_ok_iff {ε α β : Type} (make : α → Slice → β) {r : Except ε (α × Slice)} {b : β}
    {rest : Slice} :
    (do
      let (a, rest) ← r
      return (make a rest, rest)) = Except.ok (b, rest) ↔
        ∃ a, r = .ok (a, rest) ∧ b = make a rest := by
  cases r with
  | error e => simp [bind, Except.bind]
  | ok p =>
      obtain ⟨a, rest'⟩ := p
      simp only [bind, Except.bind, pure, Except.pure, Except.ok.injEq, Prod.mk.injEq]
      constructor
      · rintro ⟨rfl, rfl⟩
        exact ⟨a, ⟨rfl, rfl⟩, rfl⟩
      · rintro ⟨_, ⟨rfl, rfl⟩, rfl⟩
        exact ⟨rfl, rfl⟩

theorem missing_ne_ok {α : Type} {wanted : Wanted} {s : Slice} {r : α × Slice} :
    (missing wanted s : Except Fault (α × Slice)) ≠ .ok r := by
  simp [missing]

/-! ## blanks -/

theorem isBlank_iff {c : Char} : isBlank c = true ↔ c = ' ' ∨ c = '\n' ∨ c = '\r' ∨ c = '\t' := by
  simp [isBlank, or_assoc]

theorem blanks_iff {cs : List Char} : Blanks cs ↔ ∀ c ∈ cs, isBlank c = true := by
  simp only [Blanks, isBlank_iff]

theorem blanks_nil : Blanks [] := by simp [Blanks]

theorem skipBlanks_sound (s : Slice) : ∃ ws, Blanks ws ∧ Took s ws (skipBlanks s) :=
  ⟨_, blanks_iff.2 (all_span isBlank s), took_span isBlank s⟩

theorem skipBlanks_complete {s rest : Slice} {ws : List Char} (htook : Took s ws rest)
    (hws : Blanks ws) (hstops : Stops isBlank rest.text) : skipBlanks s = rest := by
  rw [skipBlanks, skipWhile, span_eq_of_took htook (blanks_iff.1 hws) hstops]

/-! ## parts of numbers -/

theorem digits_sound {wanted : Wanted} {s rest : Slice} {ds : List Char}
    (h : digits wanted s = .ok (ds, rest)) : Digits ds ∧ Took s ds rest := by
  rw [digits] at h
  by_cases hempty : (s.span Char.isDigit).1.text.isEmpty = true
  · simp only [hempty, if_true] at h
    exact absurd h missing_ne_ok
  · simp only [hempty, Bool.false_eq_true, if_false, Except.ok.injEq, Prod.mk.injEq] at h
    obtain ⟨rfl, rfl⟩ := h
    exact ⟨⟨by simpa using hempty, all_span Char.isDigit s⟩, took_span Char.isDigit s⟩

theorem digits_complete {wanted : Wanted} {s rest : Slice} {ds : List Char}
    (hdigits : Digits ds) (htook : Took s ds rest) (hstops : Stops Char.isDigit rest.text) :
    digits wanted s = .ok (ds, rest) := by
  rw [digits, span_eq_of_took htook hdigits.2 hstops]
  simp [hdigits.1]

theorem optionalOf_sound {cs : List Char} {s rest : Slice} {taken : List Char}
    (h : optionalOf cs s = .ok (taken, rest)) :
    (taken = [] ∨ ∃ c ∈ cs, taken = [c]) ∧ Took s taken rest := by
  obtain ⟨o, t⟩ := s
  cases t with
  | nil =>
      simp only [optionalOf, Except.ok.injEq, Prod.mk.injEq] at h
      obtain ⟨rfl, rfl⟩ := h
      exact ⟨.inl rfl, took_nil _⟩
  | cons c t =>
      by_cases hc : cs.contains c = true
      · simp only [optionalOf, hc, if_true, Except.ok.injEq, Prod.mk.injEq] at h
        obtain ⟨rfl, rfl⟩ := h
        exact ⟨.inr ⟨c, by simpa using hc, rfl⟩, took_drop_one rfl⟩
      · simp only [optionalOf, hc, Bool.false_eq_true, if_false, Except.ok.injEq,
          Prod.mk.injEq] at h
        obtain ⟨rfl, rfl⟩ := h
        exact ⟨.inl rfl, took_nil _⟩

theorem optionalOf_some {cs : List Char} {s rest : Slice} {c : Char} (hc : c ∈ cs)
    (htook : Took s [c] rest) : optionalOf cs s = .ok ([c], rest) := by
  rw [optionalOf, htook.text]
  simp [hc, htook.drop_one]

theorem optionalOf_none {cs : List Char} {s : Slice} (hstops : Stops cs.contains s.text) :
    optionalOf cs s = .ok ([], s) := by
  obtain ⟨o, t⟩ := s
  cases t with
  | nil => rfl
  | cons c t =>
      rw [stops_cons] at hstops
      simp only [optionalOf, hstops, Bool.false_eq_true, if_false]

theorem head?_of_took {s rest : Slice} {cs : List Char} (h : Took s cs rest) (hne : cs ≠ []) :
    s.text.head? = cs.head? := by
  rw [h.text]
  cases cs with
  | nil => exact absurd rfl hne
  | cons c cs => rfl

theorem wholePart_sound {s rest : Slice} {cs : List Char} (h : wholePart s = .ok (cs, rest)) :
    Whole cs ∧ Took s cs rest := by
  unfold wholePart at h
  split at h
  · rename_i t ht
    simp only [Except.ok.injEq, Prod.mk.injEq] at h
    obtain ⟨rfl, rfl⟩ := h
    exact ⟨.zero, took_drop_one ht⟩
  · rename_i hzero
    obtain ⟨hdigits, htook⟩ := digits_sound h
    refine ⟨.digits hdigits ?_, htook⟩
    rw [← head?_of_took htook hdigits.1]
    intro hhead
    obtain ⟨t, ht⟩ := List.head?_eq_some_iff.1 hhead
    exact hzero t ht

theorem wholePart_complete {s rest : Slice} {cs : List Char} (hwhole : Whole cs)
    (htook : Took s cs rest) (hstops : Stops Char.isDigit rest.text) :
    wholePart s = .ok (cs, rest) := by
  cases hwhole with
  | zero =>
      rw [wholePart, htook.text, htook.drop_one]
      rfl
  | digits hdigits hhead =>
      unfold wholePart
      split
      · rename_i t ht
        rw [← head?_of_took htook hdigits.1, ht] at hhead
        exact absurd rfl hhead
      · exact digits_complete hdigits htook hstops

theorem fractionPart_sound {s rest : Slice} {cs : List Char}
    (h : fractionPart s = .ok (cs, rest)) : Fraction cs ∧ Took s cs rest := by
  rw [fractionPart, bind_eq_ok_iff] at h
  obtain ⟨⟨point, s₁⟩, hpoint, h⟩ := h
  obtain ⟨rfl | ⟨c, hc, rfl⟩, htook⟩ := optionalOf_sound hpoint
  · simp only [List.isEmpty_nil, if_true, pure, Except.pure, Except.ok.injEq, Prod.mk.injEq] at h
    obtain ⟨rfl, rfl⟩ := h
    exact ⟨.none, htook⟩
  · simp only [List.isEmpty_cons, Bool.false_eq_true, if_false, bind_eq_ok_iff] at h
    obtain ⟨⟨ds, s₂⟩, hds, h⟩ := h
    simp only [pure, Except.pure, Except.ok.injEq, Prod.mk.injEq] at h
    obtain ⟨rfl, rfl⟩ := h
    obtain ⟨hdigits, htook'⟩ := digits_sound hds
    rw [List.mem_singleton] at hc
    subst hc
    exact ⟨.some hdigits, htook.trans htook'⟩

theorem fractionPart_complete {s rest : Slice} {cs : List Char} (hfraction : Fraction cs)
    (htook : Took s cs rest) (hstops : Stops (fun c => c.isDigit || c == '.') rest.text) :
    fractionPart s = .ok (cs, rest) := by
  cases hfraction with
  | none =>
      have hs : s = rest := (took_nil s).eq htook
      subst hs
      rw [fractionPart, optionalOf_none (hstops.mono fun c hc => by simp_all)]
      rfl
  | @some ds hdigits =>
      have htook' : Took s (['.'] ++ ds) rest := htook
      obtain ⟨r, hpoint, hds, -⟩ := htook'.split
      have hstops' : Stops Char.isDigit rest.text := hstops.mono fun c hc => by simp [hc]
      rw [fractionPart, optionalOf_some List.mem_cons_self hpoint]
      simp only [bind, Except.bind, digits_complete hdigits hds hstops']
      rfl

theorem exponentPart_sound {s rest : Slice} {cs : List Char}
    (h : exponentPart s = .ok (cs, rest)) : Exponent cs ∧ Took s cs rest := by
  rw [exponentPart, bind_eq_ok_iff] at h
  obtain ⟨⟨mark, s₁⟩, hmark, h⟩ := h
  obtain ⟨rfl | ⟨c, hc, rfl⟩, htook⟩ := optionalOf_sound hmark
  · simp only [List.isEmpty_nil, if_true, pure, Except.pure, Except.ok.injEq, Prod.mk.injEq] at h
    obtain ⟨rfl, rfl⟩ := h
    exact ⟨.none, htook⟩
  · simp only [List.isEmpty_cons, Bool.false_eq_true, if_false, bind_eq_ok_iff] at h
    obtain ⟨⟨sign, s₂⟩, hsign, ⟨ds, s₃⟩, hds, h⟩ := h
    simp only [pure, Except.pure, Except.ok.injEq, Prod.mk.injEq] at h
    obtain ⟨rfl, rfl⟩ := h
    obtain ⟨hsigns, htook₂⟩ := optionalOf_sound hsign
    obtain ⟨hdigits, htook₃⟩ := digits_sound hds
    have hsigns' : sign = [] ∨ sign = ['+'] ∨ sign = ['-'] := by
      rcases hsigns with hnil | ⟨d, hd, heq⟩
      · exact .inl hnil
      · rcases List.mem_cons.1 hd with rfl | hd
        · exact .inr (.inl heq)
        · exact .inr (.inr (List.mem_singleton.1 hd ▸ heq))
    refine ⟨.some (by simpa using hc) hsigns' hdigits, ?_⟩
    simpa using (htook.trans htook₂).trans htook₃

theorem ne_of_isDigit {c d : Char} (hc : c.isDigit = true) (hd : d.isDigit = false) : c ≠ d := by
  rintro rfl
  simp [hc] at hd

/-- Digits do not start like anything else. -/
theorem stops_of_digits {p : Char → Bool} {ds t : List Char} (h : Digits ds)
    (hp : ∀ c, c.isDigit = true → p c = false) : Stops p (ds ++ t) := by
  obtain ⟨hne, hall⟩ := h
  cases ds with
  | nil => exact absurd rfl hne
  | cons c ds =>
      rw [List.cons_append, stops_cons]
      exact hp c (hall c List.mem_cons_self)

theorem optionalOf_sign {cs sign : List Char} {s rest : Slice}
    (hsign : sign = [] ∨ ∃ c ∈ cs, sign = [c]) (htook : Took s sign rest)
    (hstops : Stops cs.contains rest.text) : optionalOf cs s = .ok (sign, rest) := by
  rcases hsign with rfl | ⟨c, hc, rfl⟩
  · have hs : s = rest := (took_nil s).eq htook
    subst hs
    exact optionalOf_none hstops
  · exact optionalOf_some hc htook

theorem exponentPart_complete {s rest : Slice} {cs : List Char} (hexponent : Exponent cs)
    (htook : Took s cs rest)
    (hstops : Stops (fun c => c.isDigit || c == 'e' || c == 'E') rest.text) :
    exponentPart s = .ok (cs, rest) := by
  cases hexponent with
  | none =>
      have hs : s = rest := (took_nil s).eq htook
      subst hs
      rw [exponentPart, optionalOf_none (hstops.mono fun c hc => ?_)]
      · rfl
      · have hmarks : c = 'e' ∨ c = 'E' := by simpa using hc
        rcases hmarks with rfl | rfl <;> rfl
  | @some mark sign ds hmark hsign hdigits =>
      have htook' : Took s ([mark] ++ (sign ++ ds)) rest := htook
      obtain ⟨r₁, hmark', hrest, -⟩ := htook'.split
      obtain ⟨r₂, hsign', hds, -⟩ := hrest.split
      have hstops' : Stops Char.isDigit rest.text := hstops.mono fun c hc => by simp [hc]
      have hsigns : sign = [] ∨ ∃ c ∈ ['+', '-'], sign = [c] := by simpa using hsign
      have hafter : Stops ['+', '-'].contains r₂.text := by
        rw [hds.text]
        refine stops_of_digits hdigits fun c hc => ?_
        simp [ne_of_isDigit hc (by rfl : '+'.isDigit = false),
          ne_of_isDigit hc (by rfl : '-'.isDigit = false)]
      rw [exponentPart, optionalOf_some (by simpa using hmark) hmark']
      simp only [bind, Except.bind, List.isEmpty_cons, Bool.false_eq_true, if_false,
        optionalOf_sign hsigns hsign' hafter, digits_complete hdigits hds hstops']
      rfl

/-! ## numbers -/

/-- The characters that a number may go on with. -/
def isNumeralChar (c : Char) : Bool := c.isDigit || c == '.' || c == 'e' || c == 'E'

/-- **Soundness** of numbers: what is read is a number of the grammar, as it is written. -/
theorem number_sound {s rest : Slice} {raw : String} (h : number s = .ok (raw, rest)) :
    ∃ cs, Numeral cs ∧ Took s cs rest ∧ raw = String.ofList cs := by
  simp only [number, bind_eq_ok_iff] at h
  obtain ⟨⟨sign, s₁⟩, h₁, ⟨whole, s₂⟩, h₂, ⟨fraction, s₃⟩, h₃, ⟨exponent, s₄⟩, h₄, h⟩ := h
  simp only [pure, Except.pure, Except.ok.injEq, Prod.mk.injEq] at h
  obtain ⟨rfl, rfl⟩ := h
  obtain ⟨hsign, t₁⟩ := optionalOf_sound h₁
  obtain ⟨hwhole, t₂⟩ := wholePart_sound h₂
  obtain ⟨hfraction, t₃⟩ := fractionPart_sound h₃
  obtain ⟨hexponent, t₄⟩ := exponentPart_sound h₄
  have hsign' : sign = [] ∨ sign = ['-'] := by simpa using hsign
  exact ⟨_, .intro hsign' hwhole hfraction hexponent, ((t₁.trans t₂).trans t₃).trans t₄, rfl⟩

/-- An exponent starts with its mark, unless it is missing. -/
theorem stops_exponent {p : Char → Bool} {cs t : List Char} (h : Exponent cs)
    (hlower : p 'e' = false) (hupper : p 'E' = false) (hstops : Stops p t) : Stops p (cs ++ t) := by
  cases h with
  | none => exact hstops
  | some hmark hsign hdigits =>
      rw [List.cons_append, stops_cons]
      rcases hmark with rfl | rfl
      · exact hlower
      · exact hupper

/-- A fraction starts with its point, unless it is missing. -/
theorem stops_fraction {p : Char → Bool} {cs t : List Char} (h : Fraction cs)
    (hpoint : p '.' = false) (hstops : Stops p t) : Stops p (cs ++ t) := by
  cases h with
  | none => exact hstops
  | some hdigits =>
      rw [List.cons_append, stops_cons]
      exact hpoint

theorem stops_whole {p : Char → Bool} {cs t : List Char} (h : Whole cs)
    (hp : ∀ c, c.isDigit = true → p c = false) : Stops p (cs ++ t) := by
  cases h with
  | zero =>
      rw [List.cons_append, stops_cons]
      exact hp '0' rfl
  | digits hdigits _ => exact stops_of_digits hdigits hp

/-- **Completeness** of numbers: a number of the grammar is read in full if nothing that could be
a part of it follows. -/
theorem number_complete {s rest : Slice} {cs : List Char} (hnumeral : Numeral cs)
    (htook : Took s cs rest) (hstops : Stops isNumeralChar rest.text) :
    number s = .ok (String.ofList cs, rest) := by
  cases hnumeral with
  | @intro sign whole fraction exponent hsign hwhole hfraction hexponent =>
      obtain ⟨s₃, htook, t₄, -⟩ := htook.split
      obtain ⟨s₂, htook, t₃, -⟩ := htook.split
      obtain ⟨s₁, t₁, t₂, -⟩ := htook.split
      have hstops₁ : Stops ['-'].contains s₁.text := by
        rw [t₂.text]
        refine stops_whole hwhole fun c hc => ?_
        simp [ne_of_isDigit hc (by rfl : '-'.isDigit = false)]
      have hstops₃ : Stops (fun c => c.isDigit || c == '.') s₃.text := by
        rw [t₄.text]
        exact stops_exponent hexponent rfl rfl (hstops.mono fun c hc => by simp_all [isNumeralChar])
      have hstops₂ : Stops Char.isDigit s₂.text := by
        rw [t₃.text]
        exact stops_fraction hfraction rfl (hstops₃.mono fun c hc => by simp [hc])
      have hstops₄ : Stops (fun c => c.isDigit || c == 'e' || c == 'E') rest.text :=
        hstops.mono fun c hc => by grind [isNumeralChar]
      have hsigns : sign = [] ∨ ∃ c ∈ ['-'], sign = [c] := by simpa using hsign
      simp only [number, bind, Except.bind, optionalOf_sign hsigns t₁ hstops₁,
        wholePart_complete hwhole t₂ hstops₂, fractionPart_complete hfraction t₃ hstops₃,
        exponentPart_complete hexponent t₄ hstops₄]
      rfl

end LocaleAudit.Json
