import LocaleAudit.Proofs.Json.Parser

/-!
# LocaleAudit.Proofs.Json.Viable

What stands in front of a fault.  A reader gives up as soon as nothing that could follow would be
read: the text in front of the fault is the beginning of something that the grammar has.  The one
other reason to give up is that too many brackets are open, and then that text holds as many opening
brackets as there may be levels.

* `Viable` — readers whose faults show behind such a beginning;
* `stringRest_viable`, `number_viable`, `value_viable` — all readers are;
* `viable_of_parse` — faults in whole texts.
-/

namespace LocaleAudit.Json

open Text Text.Slice Grammar

/-! ## faults and beginnings -/

theorem bind_eq_error_iff {ε α β : Type} {x : Except ε α} {f : α → Except ε β} {e : ε} :
    x >>= f = .error e ↔ x = .error e ∨ ∃ a, x = .ok a ∧ f a = .error e := by
  cases x with
  | error e => simp [bind, Except.bind]
  | ok a => simp [bind, Except.bind]

/-- What is made of something read fails only if that is not read. -/
theorem made_eq_error_iff {ε α β : Type} (make : α → Slice → β) {r : Except ε (α × Slice)} {e : ε} :
    (do
      let (a, rest) ← r
      return (make a rest, rest)) = Except.error e ↔ r = .error e := by
  cases r with
  | error e => simp [bind, Except.bind]
  | ok p => simp [bind, Except.bind, pure, Except.pure]

/-- A fault shows behind a text at the start of a slice. -/
def Shows (f : Fault) (s : Slice) (cs : List Char) : Prop :=
  ∃ rest, Took s cs rest ∧ f.offset = rest.offset

theorem Shows.behind {f : Fault} {s r : Slice} {cs ds : List Char} (htook : Took s cs r)
    (h : Shows f r ds) : Shows f s (cs ++ ds) := by
  obtain ⟨rest, htook', hoffset⟩ := h
  exact ⟨rest, htook.trans htook', hoffset⟩

theorem shows_here {f : Fault} {s : Slice} (h : f.offset = s.offset) : Shows f s [] :=
  ⟨s, took_nil s, h⟩

/-- What is missing is missing right here. -/
theorem shows_missing {α : Type} {wanted : Wanted} {s : Slice} {f : Fault}
    (h : (missing wanted s : Except Fault α) = .error f) : Shows f s [] := by
  simp only [missing, Except.error.injEq] at h
  subst h
  exact ⟨s, took_nil s, rfl⟩

/-- The number of opening brackets in a text, inside strings or not. -/
def opened (cs : List Char) : Nat := cs.countP fun c => c == '{' || c == '['

theorem opened_append (cs ds : List Char) : opened (cs ++ ds) = opened cs + opened ds :=
  List.countP_append

/-- A text is the beginning of something, or it opens as many brackets as a limit says. -/
def Begun {α : Type} (limit : Nat) (R : Reading α) (o : Nat) (cs : List Char) : Prop :=
  limit ≤ opened cs ∨ ∃ more a, R o (cs ++ more) a

theorem Begun.behind {α β : Type} {limit : Nat} {R : Reading α} {S : Reading β} {o o' : Nat}
    {cs : List Char} (before : List Char) (h : Begun limit R o cs)
    (hmore : ∀ more a, R o (cs ++ more) a → ∃ more' b, S o' (before ++ cs ++ more') b) :
    Begun limit S o' (before ++ cs) := by
  rcases h with h | ⟨more, a, ha⟩
  · rw [Begun, opened_append]
    exact .inl (Nat.le_add_left_of_le h)
  · exact .inr (hmore more a ha)

/-- The faults of a reader show behind beginnings of what it reads. -/
def Viable {α : Type} (limit : Nat) (read : Reader α) (R : Reading α) : Prop :=
  ∀ ⦃s : Slice⦄ ⦃f : Fault⦄, read s = .error f → ∃ cs, Shows f s cs ∧ Begun limit R s.offset cs

/-! ## strings -/

/-- A number of hexadecimal digits that may be missing. -/
theorem exists_hexDigits (n value : Nat) :
    ∃ u, HexDigits value (List.replicate n '0') u := by
  induction n generalizing value with
  | zero => exact ⟨value, .nil⟩
  | succ n ih =>
      obtain ⟨u, hu⟩ := ih (value * 16 + 0)
      exact ⟨u, .cons (.inl rfl) hu⟩

theorem hexDigits_viable {left value : Nat} {s : Slice} {f : Fault}
    (h : hexDigits left value s = .error f) :
    ∃ cs more u, Shows f s cs ∧ (cs ++ more).length = left ∧ HexDigits value (cs ++ more) u := by
  induction left generalizing value s with
  | zero => contradiction
  | succ left ih =>
      rw [hexDigits] at h
      split at h
      · rename_i x hx
        obtain ⟨c, hc, hdigit⟩ := Option.bind_eq_some_iff.1 hx
        obtain ⟨t, ht⟩ := List.head?_eq_some_iff.1 hc
        obtain ⟨cs, more, u, hshows, hlength, hdigits⟩ := ih h
        refine ⟨c :: cs, more, u, hshows.behind (took_drop_one ht), ?_, ?_⟩
        · rw [List.cons_append, List.length_cons, hlength]
        · exact .cons (hexDigit?_eq_some_iff.1 hdigit) hdigits
      · obtain ⟨u, hu⟩ := exists_hexDigits (left + 1) value
        exact ⟨[], _, u, shows_missing h, List.length_replicate, hu⟩

/-- An escape by number that cannot be read begins like one, or like the other half behind one. -/
theorem numbered_viable {s : Slice} {f : Fault} (h : numbered s = .error f) :
    ∃ cs more us, Shows f s cs ∧ Contents ('\\' :: 'u' :: (cs ++ more)) us := by
  have hcontent {ds : List Char} {u : Nat} (hlength : ds.length = 4) (hdigits : HexDigits 0 ds u) :
      Contents ('\\' :: 'u' :: ds) [u] := by
    simpa using piece_numbered hlength hdigits .nil
  rw [numbered, bind_eq_error_iff] at h
  obtain h | ⟨⟨u, s₁⟩, hunit, h⟩ := h
  · obtain ⟨cs, more, u, hshows, hlength, hdigits⟩ := hexDigits_viable h
    exact ⟨cs, more, _, hshows, hcontent hlength hdigits⟩
  · obtain ⟨ds, hlength, hdigits, tdigits⟩ := hexDigits_sound hunit
    dsimp only at h
    split at h
    · rename_i ahead hahead
      have hstrip : s₁.strip? ['\\', 'u'] = some ahead := (Option.ite_none_right_eq_some.1 hahead).2
      rw [bind_eq_error_iff] at h
      obtain h | ⟨⟨v, s₂⟩, -, h⟩ := h
      · obtain ⟨cs, more, v, hshows, hlength', hdigits'⟩ := hexDigits_viable h
        have hboth := piece_numbered hlength hdigits (hcontent hlength' hdigits')
        refine ⟨_, more, [u, v], hshows.behind (tdigits.trans (strip?_eq_some_iff.1 hstrip)), ?_⟩
        simpa using hboth
      · contradiction
    · contradiction

theorem escape_viable {s : Slice} {f : Fault} (h : escape s = .error f) :
    ∃ cs more us, Shows f s cs ∧ Contents ('\\' :: (cs ++ more)) us := by
  have here (hshows : Shows f s []) :
      ∃ cs more us, Shows f s cs ∧ Contents ('\\' :: (cs ++ more)) us :=
    ⟨[], ['"'], _, hshows, .short List.mem_cons_self .nil⟩
  unfold escape at h
  split at h
  · exact here (shows_here (Except.error.inj h ▸ rfl))
  · rename_i c t ht
    split at h
    · rename_i hu
      subst hu
      obtain ⟨cs, more, us, hshows, hcontent⟩ := numbered_viable h
      exact ⟨_, more, us, hshows.behind (took_drop_one ht), hcontent⟩
    · split at h
      · contradiction
      · exact here (shows_missing h)

/-- What the reader of a string has taken when it gives up can be completed. -/
theorem characters_viable {left : Nat} {s : Slice} {f : Fault} (h : characters left s = .error f) :
    ∃ cs more us, Shows f s cs ∧ Contents (cs ++ more) us := by
  have here {s : Slice} (hoffset : f.offset = s.offset) :
      ∃ cs more us, Shows f s cs ∧ Contents (cs ++ more) us :=
    ⟨[], [], [], shows_here hoffset, .nil⟩
  induction left generalizing s with
  | zero => exact here (Except.error.inj h ▸ rfl)
  | succ left ih =>
      have hpiece {s₁ : Slice} {piece : List Char} {us : List Nat} (hpiece : Piece piece us)
          (htook : Took s piece s₁) (hread : characters left s₁ = .error f) :
          ∃ cs more us, Shows f s cs ∧ Contents (cs ++ more) us := by
        obtain ⟨cs, more, vs, hshows, hcontent⟩ := ih hread
        refine ⟨piece ++ cs, more, us ++ vs, hshows.behind htook, ?_⟩
        rw [List.append_assoc]
        exact hpiece hcontent
      unfold characters at h
      split at h
      · exact here (Except.error.inj h ▸ rfl)
      rename_i c t ht
      split at h
      · contradiction
      split at h
      · rename_i hslash
        subst hslash
        rw [bind_eq_error_iff] at h
        obtain h | ⟨⟨d, s₁⟩, hescape, h⟩ := h
        · obtain ⟨cs, more, us, hshows, hcontent⟩ := escape_viable h
          exact ⟨_, more, us, hshows.behind (took_drop_one ht), hcontent⟩
        · obtain ⟨piece, us, hescaped, htook⟩ := escape_sound hescape
          exact hpiece hescaped ((took_drop_one ht).trans htook)
            ((made_eq_error_iff fun cs _ => d :: cs).1 h)
      split at h
      · exact here (Except.error.inj h ▸ rfl)
      · rename_i hquote hslash hcontrol
        exact hpiece (piece_plain hquote hslash (Nat.le_of_not_lt hcontrol)) (took_drop_one ht)
          ((made_eq_error_iff fun cs _ => c :: cs).1 h)

/-- A string that cannot be read begins like a literal. -/
theorem stringRest_viable {s : Slice} {f : Fault} (hquote : s.text.head? = some '"')
    (h : stringRest (s.drop 1) = .error f) :
    ∃ cs more value, Shows f s cs ∧ Literal (cs ++ more) value := by
  obtain ⟨t, ht⟩ := List.head?_eq_some_iff.1 hquote
  have hread := (made_eq_error_iff fun out _ => String.ofList out).1 h
  obtain ⟨cs, more, us, hshows, hcontent⟩ := characters_viable hread
  have hliteral := Literal.intro hcontent
  rw [List.append_assoc] at hliteral
  exact ⟨['"'] ++ cs, more ++ ['"'], _, hshows.behind (took_drop_one ht), hliteral⟩

/-! ## numbers -/

theorem digits_viable {wanted : Wanted} {s : Slice} {f : Fault} (h : digits wanted s = .error f) :
    Shows f s [] := by
  rw [digits] at h
  by_cases hempty : (s.span Char.isDigit).1.text.isEmpty = true
  · simp only [hempty, if_true] at h
    exact shows_missing h
  · simp [hempty] at h

theorem digits_zero : Digits ['0'] := ⟨by simp, by simp⟩

theorem wholePart_viable {s : Slice} {f : Fault} (h : wholePart s = .error f) : Shows f s [] := by
  unfold wholePart at h
  split at h
  · contradiction
  · exact digits_viable h

/-- A reader of at most one character does not fail. -/
theorem optionalOf_ne_error {cs : List Char} {s : Slice} {f : Fault} :
    optionalOf cs s ≠ .error f := by
  unfold optionalOf
  split <;> simp

theorem fractionPart_viable {s : Slice} {f : Fault} (h : fractionPart s = .error f) :
    ∃ cs more, Shows f s cs ∧ Fraction (cs ++ more) := by
  rw [fractionPart, bind_eq_error_iff] at h
  obtain h | ⟨⟨point, s₁⟩, hpoint, h⟩ := h
  · exact absurd h optionalOf_ne_error
  obtain ⟨rfl | ⟨c, hc, rfl⟩, htook⟩ := optionalOf_sound hpoint
  · contradiction
  · obtain rfl := List.mem_singleton.1 hc
    have hdigits := (made_eq_error_iff fun ds _ => ['.'] ++ ds).1 h
    exact ⟨['.'] ++ [], ['0'], (digits_viable hdigits).behind htook, .some digits_zero⟩

theorem exponentPart_viable {s : Slice} {f : Fault} (h : exponentPart s = .error f) :
    ∃ cs more, Shows f s cs ∧ Exponent (cs ++ more) := by
  rw [exponentPart, bind_eq_error_iff] at h
  obtain h | ⟨⟨mark, s₁⟩, hmark, h⟩ := h
  · exact absurd h optionalOf_ne_error
  obtain ⟨rfl | ⟨c, hc, rfl⟩, tmark⟩ := optionalOf_sound hmark
  · contradiction
  · simp only [List.isEmpty_cons, Bool.false_eq_true, if_false] at h
    rw [bind_eq_error_iff] at h
    obtain h | ⟨⟨sign, s₂⟩, hsign, h⟩ := h
    · exact absurd h optionalOf_ne_error
    obtain ⟨hsigns, tsign⟩ := optionalOf_sound hsign
    have hdigits := (made_eq_error_iff fun ds _ => [c] ++ sign ++ ds).1 h
    have hsigns' : sign = [] ∨ sign = ['+'] ∨ sign = ['-'] := by simpa using hsigns
    refine ⟨[c] ++ sign ++ [], ['0'], (digits_viable hdigits).behind (tmark.trans tsign), ?_⟩
    have hexponent := Exponent.some (by simpa using hc) hsigns' digits_zero
    simpa using hexponent

/-- A number that cannot be read begins like one. -/
theorem number_viable {s : Slice} {f : Fault} (h : number s = .error f) :
    ∃ cs more, Shows f s cs ∧ Numeral (cs ++ more) := by
  rw [number, bind_eq_error_iff] at h
  obtain h | ⟨⟨sign, s₁⟩, h₁, h⟩ := h
  · exact absurd h optionalOf_ne_error
  obtain ⟨hsign, t₁⟩ := optionalOf_sound h₁
  have hsign' : sign = [] ∨ sign = ['-'] := by simpa using hsign
  rw [bind_eq_error_iff] at h
  obtain h | ⟨⟨whole, s₂⟩, h₂, h⟩ := h
  · have hnumeral := Numeral.intro hsign' .zero .none .none
    exact ⟨sign ++ [], ['0'], (wholePart_viable h).behind t₁, by simpa using hnumeral⟩
  obtain ⟨hwhole, t₂⟩ := wholePart_sound h₂
  rw [bind_eq_error_iff] at h
  obtain h | ⟨⟨fraction, s₃⟩, h₃, h⟩ := h
  · obtain ⟨cs, more, hshows, hfraction⟩ := fractionPart_viable h
    have hnumeral := Numeral.intro hsign' hwhole hfraction .none
    exact ⟨_, more, hshows.behind (t₁.trans t₂), by simpa using hnumeral⟩
  obtain ⟨hfraction, t₃⟩ := fractionPart_sound h₃
  rw [made_eq_error_iff fun exponent _ =>
    String.ofList (sign ++ whole ++ fraction ++ exponent)] at h
  obtain ⟨cs, more, hshows, hexponent⟩ := exponentPart_viable h
  have hnumeral := Numeral.intro hsign' hwhole hfraction hexponent
  exact ⟨_, more, hshows.behind ((t₁.trans t₂).trans t₃), by simpa using hnumeral⟩

/-! ## items -/

section items

variable {α : Type} {limit : Nat} {read : Reader α} {R : Reading α}

/-- Items that cannot be read begin like items: either the last of them begins like an item, or the
items in front of it are complete. -/
theorem items_viable (hsound : Sound read R) (hread : Viable limit read R)
    (hany : ∀ o, Begun limit R o []) {close : Char} {left : Nat} {s : Slice} {f : Fault}
    (h : items close read left s = .error f) :
    ∃ cs, Shows f s cs ∧ Begun limit (Items R) s.offset cs := by
  induction left generalizing s with
  | zero =>
      refine ⟨[] ++ [], shows_missing h, (hany s.offset).behind [] fun more a ha => ?_⟩
      exact ⟨more, [a], by simpa using Items.one blanks_nil ha blanks_nil⟩
  | succ left ih =>
      rw [items, bind_eq_error_iff] at h
      obtain h | ⟨⟨a, rest⟩, hitem, h⟩ := h
      · obtain ⟨before, hbefore, tbefore⟩ := skipBlanks_sound s
        obtain ⟨cs, hshows, hbegun⟩ := hread h
        rw [tbefore.offset] at hbegun
        refine ⟨_, hshows.behind tbefore, hbegun.behind before fun more a ha => ?_⟩
        exact ⟨more, [a], by simpa using Items.one hbefore ha blanks_nil⟩
      obtain ⟨before, cs, after, hbefore, hitem, hafter, htook⟩ := item_sound hsound hitem
      -- behind an item without a comma or a bracket the items are complete as they are
      have complete (hmissing : (missing (.commaOr close) (skipBlanks rest) :
          Except Fault (List α × Slice)) = .error f) :
          ∃ cs, Shows f s cs ∧ Begun limit (Items R) s.offset cs := by
        refine ⟨_, (shows_missing hmissing).behind htook, .inr ⟨[], [a], ?_⟩⟩
        simpa using Items.one hbefore hitem hafter
      simp only at h
      split at h
      · rename_i c t ht
        split at h
        · rename_i hcomma
          subst hcomma
          have htook' := htook.trans (took_drop_one ht)
          obtain ⟨cs', hshows, hbegun⟩ := ih ((made_eq_error_iff fun as _ => a :: as).1 h)
          rw [htook'.offset] at hbegun
          refine ⟨_, hshows.behind htook', hbegun.behind _ fun more as has => ?_⟩
          exact ⟨more, a :: as, by simpa using Items.cons hbefore hitem hafter has⟩
        split at h
        · contradiction
        · exact complete h
      · exact complete h

/-- What a bracket opens and cannot be read begins like items in brackets, and it opens one bracket
more than they do. -/
theorem bracketed_viable (opening : Char) {close : Char} (hopening : opened [opening] = 1)
    (hsound : Sound read R) (hread : Viable limit read R) (hany : ∀ o, Begun limit R o [])
    {s : Slice} {f : Fault} (hhead : s.text.head? = some opening)
    (h : bracketed close read (s.drop 1) = .error f) :
    ∃ cs, Shows f s cs ∧ Begun (limit + 1) (Bracketed opening close R) s.offset cs := by
  obtain ⟨t, ht⟩ := List.head?_eq_some_iff.1 hhead
  have topening := took_drop_one ht
  obtain ⟨ws, hws, tws⟩ := skipBlanks_sound (s.drop 1)
  simp only [bracketed] at h
  split at h
  · contradiction
  obtain ⟨cs, hshows, hbegun⟩ := items_viable hsound hread hany h
  refine ⟨_, hshows.behind (topening.trans tws), ?_⟩
  rcases hbegun with hlimit | ⟨more, as, has⟩
  · left
    rw [opened_append, opened_append, hopening]
    omega
  · right
    rw [tws.offset, topening.offset] at has
    refine ⟨more ++ [close], as, ?_⟩
    simpa using Bracketed.items (items_blanks_append hws has)

end items

/-! ## members and values -/

/-- A beginning of a name and blanks is a beginning of a member, if a value may come. -/
theorem begun_member {limit : Nat} {R : Reading Node} (hany : ∀ o, Begun limit R o []) {o : Nat}
    {literal before cs more : List Char} {name : String} (hliteral : Literal literal name)
    (hbefore : Blanks before) (hcut : literal ++ before = cs ++ more) :
    Begun limit (Grammar.Member R) o cs := by
  have hvalue := hany (o + byteLength (literal ++ before ++ [':'] ++ []))
  have hbegun : Begun limit (Grammar.Member R) o (cs ++ []) := hvalue.behind cs fun more' n hn =>
    ⟨more ++ [':'] ++ more', _, by
      have hmember := Grammar.Member.intro hliteral hbefore blanks_nil hn
      rw [hcut] at hmember
      simpa using hmember⟩
  simpa using hbegun

/-- A member that cannot be read begins like one, if a value may come. -/
theorem member_viable {limit : Nat} {read : Reader Node} {R : Reading Node}
    (hread : Viable limit read R) (hany : ∀ o, Begun limit R o []) :
    Viable limit (member read) (Grammar.Member R) := by
  intro s f h
  unfold member at h
  split at h
  · rename_i t ht
    have hquote : s.text.head? = some '"' := by rw [ht, List.head?_cons]
    rw [bind_eq_error_iff] at h
    obtain h | ⟨⟨name, r₁⟩, hname, h⟩ := h
    · obtain ⟨cs, more, name, hshows, hliteral⟩ := stringRest_viable hquote h
      exact ⟨cs, hshows, begun_member hany hliteral blanks_nil (List.append_nil _)⟩
    obtain ⟨literal, hliteral, tliteral⟩ := stringRest_sound hquote hname
    obtain ⟨before, hbefore, tbefore⟩ := skipBlanks_sound r₁
    have hfront := tliteral.trans tbefore
    simp only at h
    split at h
    · rename_i t' ht'
      obtain ⟨after, hafter, tafter⟩ := skipBlanks_sound ((skipBlanks r₁).drop 1)
      have htook := (hfront.trans (took_drop_one ht')).trans tafter
      obtain ⟨cs, hshows, hbegun⟩ := hread ((made_eq_error_iff fun node rest =>
        (⟨_, node, ⟨s.offset, rest.offset⟩⟩ : Member Node)).1 h)
      rw [htook.offset] at hbegun
      refine ⟨_, hshows.behind htook, hbegun.behind _ fun more n hn => ?_⟩
      exact ⟨more, _, by simpa using Grammar.Member.intro hliteral hbefore hafter hn⟩
    · refine ⟨_, (shows_missing h).behind hfront, ?_⟩
      rw [List.append_nil]
      exact begun_member hany hliteral hbefore (List.append_nil _).symm
  · exact ⟨[], shows_missing h, begun_member hany (.intro .nil) blanks_nil rfl⟩

theorem begun_value (levels o : Nat) : Begun levels (Within levels) o [] := by
  cases levels with
  | zero => exact .inl (Nat.zero_le _)
  | succ levels => exact .inr ⟨_, _, .null, Nat.succ_pos levels⟩

theorem word_viable {w : String} {node : Span → Node} {s : Slice} {f : Fault}
    (h : word w node s = .error f) : Shows f s [] := by
  rw [word] at h
  split at h
  · contradiction
  · exact shows_missing h

/-- **A value that cannot be read** begins like one, unless too many brackets are open. -/
theorem value_viable (levels : Nat) : Viable levels (value levels) (Within levels) := by
  -- the parts of an array or an object have one level less, and its bracket is one more
  induction levels with
  | zero =>
      intro s f h
      exact ⟨[], shows_here (Except.error.inj h ▸ rfl), begun_value 0 s.offset⟩
  | succ levels ih =>
      intro s f h
      have hany := begun_value levels
      have nothing (hshows : Shows f s []) :
          ∃ cs, Shows f s cs ∧ Begun (levels + 1) (Within (levels + 1)) s.offset cs :=
        ⟨[], hshows, begun_value (levels + 1) s.offset⟩
      unfold value at h
      split at h
      · rename_i t ht
        have hmembers := (made_eq_error_iff fun ms r => Node.object ms ⟨s.offset, r.offset⟩).1 h
        obtain ⟨cs, hshows, hbegun⟩ := bracketed_viable '{' rfl
          (member_sound (value_sound levels)) (member_viable ih hany)
          (fun o => begun_member hany (.intro .nil) blanks_nil rfl)
          (by rw [ht, List.head?_cons]) hmembers
        refine ⟨_, hshows, hbegun.behind [] fun more ms hms => ?_⟩
        exact ⟨more, _, within_object_iff.2 ⟨rfl, hms⟩⟩
      · rename_i t ht
        have helements := (made_eq_error_iff fun ns r => Node.array ns ⟨s.offset, r.offset⟩).1 h
        obtain ⟨cs, hshows, hbegun⟩ := bracketed_viable '[' rfl (value_sound levels)
          ih hany (by rw [ht, List.head?_cons]) helements
        refine ⟨_, hshows, hbegun.behind [] fun more ns hns => ?_⟩
        exact ⟨more, _, within_array_iff.2 ⟨rfl, hns⟩⟩
      · rename_i t ht
        have hstring := (made_eq_error_iff fun text r => Node.string text ⟨s.offset, r.offset⟩).1 h
        obtain ⟨cs, more, value, hshows, hliteral⟩ :=
          stringRest_viable (by rw [ht, List.head?_cons]) hstring
        exact ⟨cs, hshows, .inr ⟨more, _, .string hliteral, Nat.succ_pos levels⟩⟩
      · exact nothing (word_viable h)
      · exact nothing (word_viable h)
      · exact nothing (word_viable h)
      · split at h
        · have hnumber := (made_eq_error_iff fun raw r => Node.number raw ⟨s.offset, r.offset⟩).1 h
          obtain ⟨cs, more, hshows, hnumeral⟩ := number_viable hnumber
          exact ⟨cs, hshows, .inr ⟨more, _, .number hnumeral, Nat.succ_pos levels⟩⟩
        · exact nothing (shows_missing h)
      · exact nothing (shows_missing h)

/-! ## documents -/

theorem opened_le_of_shows {f : Fault} {s : Slice} {cs : List Char} (h : Shows f s cs) :
    opened cs ≤ opened s.text := by
  obtain ⟨rest, htook, -⟩ := h
  rw [htook.text, opened_append]
  exact Nat.le_add_right _ _

/-- What stands in front of a fault is the beginning of a document. -/
theorem exists_document_of_error {text : List Char} {f : Fault} (h : parse text = .error f)
    (hopened : opened text < levelLimit) :
    ∃ cs more node, Shows f ⟨0, text⟩ cs ∧ Document (cs ++ more) node := by
  obtain ⟨mark, hmark, tmark⟩ := behindMark_sound text
  obtain ⟨before, hbefore, tbefore⟩ := skipBlanks_sound (behindMark text)
  have tfront := tmark.trans tbefore
  have hoffset := tfront.offset
  rw [Nat.zero_add] at hoffset
  rw [parse, bind_eq_error_iff] at h
  obtain h | ⟨⟨node, rest⟩, hread, h⟩ := h
  · obtain ⟨cs, hshows, hbegun⟩ := value_viable levelLimit h
    have hshows' := hshows.behind tfront
    rcases hbegun with hlimit | ⟨more, node, hvalue, hheight⟩
    · have hle := opened_le_of_shows hshows'
      rw [opened_append] at hle
      simp only at hle
      omega
    · rw [hoffset] at hvalue
      have hdocument := Document.intro hmark hbefore hvalue blanks_nil (Nat.le_of_lt_succ hheight)
      exact ⟨_, more, node, hshows', by simpa using hdocument⟩
  · obtain ⟨cs, ⟨hvalue, hheight⟩, tvalue⟩ := value_sound levelLimit hread
    obtain ⟨after, hafter, tafter⟩ := skipBlanks_sound rest
    rw [hoffset] at hvalue
    have hdocument := Document.intro hmark hbefore hvalue hafter (Nat.le_of_lt_succ hheight)
    simp only at h
    split at h
    · contradiction
    · refine ⟨_, [], node, ⟨_, (tfront.trans tvalue).trans tafter, ?_⟩, by simpa using hdocument⟩
      exact Except.error.inj h ▸ rfl

/-- **A fault shows behind the beginning of a document**: in a text with at most 512 opening
brackets, what stands in front of the fault can be completed to a text that is parsed.  The fault
lies at the end of that part, so between two characters of the text, and the place that is told is
the place there. -/
theorem viable_of_parse {text : List Char} {f : Fault} (h : parse text = .error f)
    (hopened : opened text ≤ 512) :
    ∃ before after, text = before ++ after ∧ f.offset = byteLength before ∧
      f.message text = placed f.cause.message (position text (byteLength before)) ∧
      ∃ more node, parse (before ++ more) = .ok node := by
  obtain ⟨before, more, node, ⟨rest, htook, hoffset⟩, hdocument⟩ :=
    exists_document_of_error h (Nat.lt_succ_of_le hopened)
  rw [htook.offset, Nat.zero_add] at hoffset
  refine ⟨before, rest.text, htook.text, hoffset, ?_, more, node, parse_of_document hdocument⟩
  rw [Fault.message, hoffset]

/-- A text that ends in a digit of an escape, in the name of a member of an element. -/
def unfinished : List Char := "[1, \x7b\"é\\u00".toList

theorem viable_of_parse_escape :
    parse unfinished = .error ⟨.missing .hexDigit none, 12⟩ ∧ opened unfinished ≤ 512 ∧
    ∃ before after, unfinished = before ++ after ∧ 12 = byteLength before ∧
      ∃ more node, parse (before ++ more) = .ok node := by
  have hparse : parse unfinished = .error ⟨.missing .hexDigit none, 12⟩ := rfl
  have hopened : opened unfinished ≤ 512 := by decide
  obtain ⟨before, after, htext, hoffset, -, hmore⟩ := viable_of_parse hparse hopened
  exact ⟨hparse, hopened, before, after, htext, hoffset, hmore⟩

end LocaleAudit.Json
