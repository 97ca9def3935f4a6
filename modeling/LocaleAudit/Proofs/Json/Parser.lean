import LocaleAudit.Proofs.Json.Literal

/-!
# LocaleAudit.Proofs.Json.Parser

The parser accepts exactly the grammar.  A reader is compared with the grammar by two properties:
`Sound` says that what it takes is derived, and `Complete` that it takes what is derived if an item
may end there.  Both go from a reader of items to the readers of what is made of them, so values
of one more level follow from values with fewer, by induction on the levels that are left.

* `value_sound`, `value_complete` — values with a limit on their levels;
* `parse_iff_document` — whole texts.
-/

namespace LocaleAudit.Json

open Text Text.Slice Grammar

/-! ## readers and the grammar -/

/-- What may follow an item: a blank, a comma or a closing bracket. -/
def endsItem (c : Char) : Bool := isBlank c || c == ',' || c == ']' || c == '}'

/-- A text in which an item may end at the start. -/
def Follows (t : List Char) : Prop := ∀ c ∈ t.head?, endsItem c = true

/-- What a reader takes stands for what it gives. -/
def Sound {α : Type} (read : Reader α) (R : Reading α) : Prop :=
  ∀ ⦃s rest : Slice⦄ ⦃a : α⦄, read s = .ok (a, rest) → ∃ cs, R s.offset cs a ∧ Took s cs rest

/-- A reader takes every text that stands for something, if the item may end behind it. -/
def Complete {α : Type} (read : Reader α) (R : Reading α) : Prop :=
  ∀ ⦃s rest : Slice⦄ ⦃cs : List Char⦄ ⦃a : α⦄, R s.offset cs a → Took s cs rest →
    Follows rest.text → read s = .ok (a, rest)

/-- What stands for something is not empty, and no item may end at its start. -/
def Begins {α : Type} (R : Reading α) : Prop :=
  ∀ ⦃o : Nat⦄ ⦃cs : List Char⦄ ⦃a : α⦄, R o cs a → cs ≠ [] ∧ Stops endsItem cs

theorem endsItem_of_isBlank {c : Char} (h : isBlank c = true) : endsItem c = true := by
  simp [endsItem, h]

/-- A number does not go on where an item may end. -/
theorem Follows.stops {t : List Char} (h : Follows t) : Stops isNumeralChar t := by
  intro c hc
  have hends := h c hc
  simp only [endsItem, Bool.or_eq_true, beq_iff_eq, isBlank_iff] at hends
  rcases hends with (((rfl | rfl | rfl | rfl) | rfl) | rfl) | rfl <;> rfl

theorem follows_blanks {ws t : List Char} (hws : Blanks ws) (ht : Follows t) :
    Follows (ws ++ t) := by
  cases ws with
  | nil => exact ht
  | cons c ws =>
      intro d hd
      obtain rfl : c = d := by simpa using hd
      exact endsItem_of_isBlank (blanks_iff.1 hws c List.mem_cons_self)

/-- What begins like an item is behind all blanks. -/
theorem stops_isBlank_append {cs : List Char} (h : cs ≠ [] ∧ Stops endsItem cs) (t : List Char) :
    Stops isBlank (cs ++ t) :=
  (h.2.append h.1 t).mono fun _ hc => endsItem_of_isBlank hc

/-! ## items -/

section items

variable {α : Type} {read : Reader α} {R : Reading α}

/-- An item and the blanks around it. -/
theorem item_sound (hread : Sound read R) {s rest : Slice} {a : α}
    (h : read (skipBlanks s) = .ok (a, rest)) :
    ∃ before cs after, Blanks before ∧ R (s.offset + byteLength before) cs a ∧ Blanks after ∧
      Took s (before ++ cs ++ after) (skipBlanks rest) := by
  obtain ⟨before, hbefore, htook⟩ := skipBlanks_sound s
  obtain ⟨cs, hitem, htook'⟩ := hread h
  obtain ⟨after, hafter, htook''⟩ := skipBlanks_sound rest
  rw [htook.offset] at hitem
  exact ⟨before, cs, after, hbefore, hitem, hafter, (htook.trans htook').trans htook''⟩

theorem item_complete (hread : Complete read R) (hbegins : Begins R) {s rest : Slice}
    {before cs after : List Char} {a : α} (hbefore : Blanks before)
    (hitem : R (s.offset + byteLength before) cs a) (hafter : Blanks after)
    (htook : Took s (before ++ cs ++ after) rest) (hfollows : Follows rest.text)
    (hstops : Stops isBlank rest.text) :
    ∃ mid, read (skipBlanks s) = .ok (a, mid) ∧ skipBlanks mid = rest := by
  obtain ⟨mid, htook, tafter, -⟩ := htook.split
  obtain ⟨inner, tbefore, titem, -⟩ := htook.split
  have hskip : skipBlanks s = inner := by
    refine skipBlanks_complete tbefore hbefore ?_
    rw [titem.text]
    exact stops_isBlank_append (hbegins hitem) _
  have hmid : Follows mid.text := by
    rw [tafter.text]
    exact follows_blanks hafter hfollows
  rw [← tbefore.offset] at hitem
  rw [hskip]
  exact ⟨mid, hread hitem titem hmid, skipBlanks_complete tafter hafter hstops⟩

theorem items_sound (hread : Sound read R) {close : Char} {left : Nat} {s rest : Slice}
    {as : List α} (h : items close read left s = .ok (as, rest)) :
    ∃ cs, Items R s.offset cs as ∧ Took s (cs ++ [close]) rest := by
  induction left generalizing s as with
  | zero => exact absurd h missing_ne_ok
  | succ left ih =>
      rw [items, bind_eq_ok_iff] at h
      obtain ⟨⟨a, mid⟩, hitem, h⟩ := h
      obtain ⟨before, cs, after, hbefore, hitem, hafter, htook⟩ := item_sound hread hitem
      simp only at h
      split at h
      · rename_i c t ht
        have htook' := htook.trans (took_drop_one ht)
        split at h
        · rename_i hcomma
          subst hcomma
          obtain ⟨as', hrest, rfl⟩ := (made_eq_ok_iff fun as' _ => a :: as').1 h
          obtain ⟨cs', hitems, htook''⟩ := ih hrest
          rw [htook'.offset] at hitems
          refine ⟨_, .cons hbefore hitem hafter hitems, ?_⟩
          rw [List.append_assoc]
          exact htook'.trans htook''
        split at h
        · rename_i hclose
          subst hclose
          simp only [pure, Except.pure, Except.ok.injEq, Prod.mk.injEq] at h
          obtain ⟨rfl, rfl⟩ := h
          exact ⟨_, .one hbefore hitem hafter, htook'⟩
        · exact absurd h missing_ne_ok
      · exact absurd h missing_ne_ok

/-- Items need a comma each, except the last one. -/
theorem length_le_of_items {o : Nat} {cs : List Char} {as : List α} (h : Items R o cs as) :
    as.length ≤ cs.length + 1 := by
  induction h with
  | one => simp
  | cons _ _ _ _ ih =>
      simp only [List.length_append, List.length_cons, List.length_nil]
      omega

theorem items_complete (hread : Complete read R) (hbegins : Begins R) {close : Char}
    (hclose : close = ']' ∨ close = '}') {left o : Nat} {s rest : Slice} {cs : List Char}
    {as : List α} (hitems : Items R o cs as) (hoffset : s.offset = o)
    (htook : Took s (cs ++ [close]) rest) (hleft : as.length ≤ left) :
    items close read left s = .ok (as, rest) := by
  have hcomma : close ≠ ',' := by rcases hclose with rfl | rfl <;> decide
  -- on the derivation, because the reader decides between the two cases only behind an item
  induction hitems generalizing left s with
  | one hbefore hitem hafter =>
      subst hoffset
      obtain ⟨r, htook, tclose, -⟩ := htook.split
      have hends : Follows r.text ∧ Stops isBlank r.text := by
        rw [tclose.text]
        rcases hclose with rfl | rfl <;> simp [Follows, endsItem, isBlank]
      obtain ⟨mid, hmid, hskip⟩ :=
        item_complete hread hbegins hbefore hitem hafter htook hends.1 hends.2
      cases left with
      | zero => contradiction
      | succ left =>
          simp only [items, hmid, bind, Except.bind, hskip, tclose.text, List.cons_append, hcomma,
            if_false, if_true, tclose.drop_one]
          rfl
  | cons hbefore hitem hafter hrest ih =>
      subst hoffset
      rw [List.append_assoc] at htook
      obtain ⟨r', htook, trest, -⟩ := htook.split
      have hoffset := htook.offset
      obtain ⟨r, htook, tcomma, -⟩ := htook.split
      have hends : Follows r.text ∧ Stops isBlank r.text := by
        rw [tcomma.text]
        simp [Follows, endsItem, isBlank]
      obtain ⟨mid, hmid, hskip⟩ :=
        item_complete hread hbegins hbefore hitem hafter htook hends.1 hends.2
      cases left with
      | zero => contradiction
      | succ left =>
          have hread := ih hoffset trest (Nat.le_of_succ_le_succ hleft)
          simp only [items, hmid, bind, Except.bind, hskip, tcomma.text, List.cons_append,
            if_true, tcomma.drop_one, hread]
          rfl

/-- Blanks in front of items. -/
theorem items_blanks_append {o : Nat} {ws cs : List Char} {as : List α} (hws : Blanks ws)
    (h : Items R (o + byteLength ws) cs as) : Items R o (ws ++ cs) as := by
  have hblanks {before : List Char} (hbefore : Blanks before) : Blanks (ws ++ before) :=
    fun c hc => (List.mem_append.1 hc).elim (hws c) (hbefore c)
  cases h with
  | @one _ before cs after a hbefore hitem hafter =>
      rw [Nat.add_assoc, ← byteLength_append] at hitem
      have hone := Items.one (hblanks hbefore) hitem hafter
      simpa only [List.append_assoc] using hone
  | @cons _ before cs after rest a as hbefore hitem hafter hrest =>
      rw [Nat.add_assoc, ← byteLength_append] at hitem hrest
      simp only [← List.append_assoc] at hrest
      have hcons := Items.cons (hblanks hbefore) hitem hafter hrest
      simpa only [List.append_assoc] using hcons

/-- Items behind the blanks in front of the first one. -/
theorem exists_blanks_of_items (hbegins : Begins R) {o : Nat} {cs : List Char} {as : List α}
    (h : Items R o cs as) :
    ∃ ws cs', cs = ws ++ cs' ∧ Blanks ws ∧ Items R (o + byteLength ws) cs' as ∧ cs' ≠ [] ∧
      Stops endsItem cs' := by
  have hbegins' {o : Nat} {cs : List Char} {a : α} (h : R o cs a) (t : List Char) :
      cs ++ t ≠ [] ∧ Stops endsItem (cs ++ t) :=
    ⟨List.append_ne_nil_of_left_ne_nil (hbegins h).1 t, (hbegins h).2.append (hbegins h).1 t⟩
  cases h with
  | @one _ before cs after a hbefore hitem hafter =>
      have hone : Items R (o + byteLength before) ([] ++ cs ++ after) [a] :=
        .one blanks_nil hitem hafter
      exact ⟨before, _, by simp, hbefore, hone, hbegins' hitem after⟩
  | @cons _ before cs after rest a as hbefore hitem hafter hrest =>
      rw [List.append_assoc, List.append_assoc, byteLength_append, ← Nat.add_assoc] at hrest
      have hcons : Items R (o + byteLength before) ([] ++ cs ++ after ++ [','] ++ rest) (a :: as) :=
        .cons blanks_nil hitem hafter (by simpa using hrest)
      refine ⟨before, _, by simp, hbefore, hcons, ?_⟩
      simpa using hbegins' hitem (after ++ [','] ++ rest)

theorem bracketed_sound (opening : Char) {close : Char} (hread : Sound read R) {s rest : Slice}
    {as : List α} (hopening : s.text.head? = some opening)
    (h : bracketed close read (s.drop 1) = .ok (as, rest)) :
    ∃ cs, Bracketed opening close R s.offset cs as ∧ Took s cs rest := by
  obtain ⟨t, ht⟩ := List.head?_eq_some_iff.1 hopening
  have topening := took_drop_one ht
  obtain ⟨ws, hws, tws⟩ := skipBlanks_sound (s.drop 1)
  simp only [bracketed] at h
  split at h
  · rename_i hclose
    obtain ⟨t', ht'⟩ := List.head?_eq_some_iff.1 hclose
    simp only [Except.ok.injEq, Prod.mk.injEq] at h
    obtain ⟨rfl, rfl⟩ := h
    exact ⟨_, .empty hws, topening.trans (tws.trans (took_drop_one ht'))⟩
  · obtain ⟨cs, hitems, titems⟩ := items_sound hread h
    rw [tws.offset, topening.offset] at hitems
    refine ⟨opening :: (ws ++ cs ++ [close]), .items (items_blanks_append hws hitems), ?_⟩
    rw [List.append_assoc]
    exact topening.trans (tws.trans titems)

theorem bracketed_complete (hread : Complete read R) (hbegins : Begins R) {opening close : Char}
    (hclose : close = ']' ∨ close = '}') {s rest : Slice} {cs : List Char} {as : List α}
    (hbracketed : Bracketed opening close R s.offset cs as) (htook : Took s cs rest) :
    bracketed close read (s.drop 1) = .ok (as, rest) := by
  have hends : endsItem close = true ∧ isBlank close = false := by
    rcases hclose with rfl | rfl <;> decide
  cases hbracketed with
  | @empty _ ws hws =>
      have htook' : Took s ([opening] ++ (ws ++ [close])) rest := htook
      obtain ⟨r, topening, htook', -⟩ := htook'.split
      obtain ⟨inner, tws, tclose, -⟩ := htook'.split
      have hskip : skipBlanks (s.drop 1) = inner := by
        rw [topening.drop_one]
        refine skipBlanks_complete tws hws ?_
        rw [tclose.text]
        simpa using hends.2
      simp [bracketed, hskip, tclose.text, tclose.drop_one]
  | @items _ cs as hitems =>
      have htook' : Took s ([opening] ++ (cs ++ [close])) rest := htook
      obtain ⟨r, topening, htook', -⟩ := htook'.split
      obtain ⟨ws, cs', rfl, hws, hitems, hcs'⟩ := exists_blanks_of_items hbegins hitems
      rw [List.append_assoc] at htook'
      obtain ⟨inner, tws, titems, -⟩ := htook'.split
      have hskip : skipBlanks (s.drop 1) = inner := by
        rw [topening.drop_one]
        refine skipBlanks_complete tws hws ?_
        rw [titems.text, List.append_assoc]
        exact stops_isBlank_append hcs' _
      have hnotclose : inner.text.head? ≠ some close := by
        obtain ⟨hne, hstops⟩ := hcs'
        cases cs' with
        | nil => exact absurd rfl hne
        | cons c cs' =>
            rw [titems.text, List.append_assoc, List.cons_append, List.head?_cons]
            rw [stops_cons] at hstops
            rintro ⟨⟩
            simp [hends.1] at hstops
      -- the text has room for a comma behind each item but the last, so the count does not run out
      have hleft : as.length ≤ inner.text.length + 1 := by
        have hlength := length_le_of_items hitems
        rw [titems.text, List.length_append, List.length_append]
        omega
      have hoffset : inner.offset = s.offset + opening.utf8Size + byteLength ws := by
        rw [tws.offset, topening.offset]
        rfl
      simp only [bracketed, hskip, hnotclose, if_false]
      exact items_complete hread hbegins hclose hitems hoffset titems hleft

/-- Items of which each has a property. -/
theorem items_and_iff {P : α → Prop} {o : Nat} {cs : List Char} {as : List α} :
    Items (fun o cs a => R o cs a ∧ P a) o cs as ↔ Items R o cs as ∧ ∀ a ∈ as, P a := by
  constructor
  · intro h
    induction h with
    | one hbefore hitem hafter => exact ⟨.one hbefore hitem.1 hafter, by simpa using hitem.2⟩
    | cons hbefore hitem hafter _ ih =>
        exact ⟨.cons hbefore hitem.1 hafter ih.1, List.forall_mem_cons.2 ⟨hitem.2, ih.2⟩⟩
  · rintro ⟨h, hall⟩
    induction h with
    | one hbefore hitem hafter => exact .one hbefore ⟨hitem, hall _ List.mem_cons_self⟩ hafter
    | cons hbefore hitem hafter _ ih =>
        obtain ⟨ha, has⟩ := List.forall_mem_cons.1 hall
        exact .cons hbefore ⟨hitem, ha⟩ hafter (ih has)

theorem bracketed_and_iff {P : α → Prop} {opening close : Char} {o : Nat} {cs : List Char}
    {as : List α} :
    Bracketed opening close (fun o cs a => R o cs a ∧ P a) o cs as ↔
      Bracketed opening close R o cs as ∧ ∀ a ∈ as, P a := by
  constructor
  · intro h
    cases h with
    | empty hws => exact ⟨.empty hws, by simp⟩
    | items hitems =>
        obtain ⟨hitems, hall⟩ := items_and_iff.1 hitems
        exact ⟨.items hitems, hall⟩
  · rintro ⟨h, hall⟩
    cases h with
    | empty hws => exact .empty hws
    | items hitems => exact .items (items_and_iff.2 ⟨hitems, hall⟩)

end items

/-! ## members -/

theorem span_of_took {s rest : Slice} {cs : List Char} (h : Took s cs rest) :
    (⟨s.offset, rest.offset⟩ : Span) = spanOf s.offset cs := by
  rw [spanOf, h.offset]

theorem member_sound {read : Reader Node} {R : Reading Node} (hread : Sound read R) :
    Sound (member read) (Grammar.Member R) := by
  intro s rest m h
  unfold member at h
  split at h
  · rename_i t ht
    obtain ⟨⟨name, r₁⟩, hname, h⟩ := bind_eq_ok_iff.1 h
    obtain ⟨literal, hliteral, tliteral⟩ := stringRest_sound (by rw [ht, List.head?_cons]) hname
    obtain ⟨before, hbefore, tbefore⟩ := skipBlanks_sound r₁
    simp only at h
    split at h
    · rename_i t' ht'
      obtain ⟨after, hafter, tafter⟩ := skipBlanks_sound ((skipBlanks r₁).drop 1)
      obtain ⟨node, hnode, rfl⟩ := (made_eq_ok_iff fun node rest =>
        (⟨_, node, ⟨s.offset, rest.offset⟩⟩ : Member Node)).1 h
      obtain ⟨cs, hvalue, tvalue⟩ := hread hnode
      have htook := ((tliteral.trans tbefore).trans (took_drop_one ht')).trans tafter
      rw [htook.offset] at hvalue
      rw [span_of_took tliteral, span_of_took (htook.trans tvalue)]
      exact ⟨_, .intro hliteral hbefore hafter hvalue, htook.trans tvalue⟩
    · exact absurd h missing_ne_ok
  · exact absurd h missing_ne_ok

theorem member_complete {read : Reader Node} {R : Reading Node} (hread : Complete read R)
    (hbegins : Begins R) : Complete (member read) (Grammar.Member R) := by
  intro s rest cs m hmember htook hfollows
  cases hmember with
  | @intro _ literal before after cs name node hliteral hbefore hafter hvalue =>
      have hspan := span_of_took htook
      obtain ⟨r₄, htook, tvalue, -⟩ := htook.split
      have hoffset := htook.offset
      obtain ⟨r₃, htook, tafter, -⟩ := htook.split
      obtain ⟨r₂, htook, tcolon, -⟩ := htook.split
      obtain ⟨r₁, tliteral, tbefore, -⟩ := htook.split
      have hquote : ∃ t, s.text = '"' :: t := by
        cases hliteral with
        | intro hcontent => exact ⟨_, tliteral.text⟩
      obtain ⟨t, ht⟩ := hquote
      have hskip₂ : skipBlanks r₁ = r₂ := by
        refine skipBlanks_complete tbefore hbefore ?_
        rw [tcolon.text]
        simp [isBlank]
      have hskip₄ : skipBlanks r₃ = r₄ := by
        refine skipBlanks_complete tafter hafter ?_
        rw [tvalue.text]
        exact stops_isBlank_append (hbegins hvalue) _
      rw [← hoffset] at hvalue
      simp only [member, ht, stringRest_complete hliteral tliteral, bind, Except.bind, hskip₂,
        tcolon.text, List.cons_append, tcolon.drop_one, hskip₄, hread hvalue tvalue hfollows,
        span_of_took tliteral, hspan]
      rfl

theorem begins_member (R : Reading Node) : Begins (Grammar.Member R) := by
  intro o cs m h
  cases h with
  | intro hliteral hbefore hafter hvalue =>
      cases hliteral with
      | intro hcontent => exact ⟨by simp, by simp [endsItem, isBlank]⟩

theorem member_and_iff {R : Reading Node} {P : Node → Prop} {o : Nat} {cs : List Char}
    {m : Member Node} :
    Grammar.Member (fun o cs n => R o cs n ∧ P n) o cs m ↔ Grammar.Member R o cs m ∧ P m.value := by
  constructor
  · rintro ⟨hliteral, hbefore, hafter, hvalue, hnode⟩
    exact ⟨.intro hliteral hbefore hafter hvalue, hnode⟩
  · rintro ⟨⟨hliteral, hbefore, hafter, hvalue⟩, hnode⟩
    exact .intro hliteral hbefore hafter ⟨hvalue, hnode⟩

/-! ## values -/

/-- A value of the grammar with fewer levels below it than a limit. -/
def Within (levels : Nat) : Reading Node := fun o cs n => Grammar.Value o cs n ∧ height n < levels

theorem Within.mono {levels levels' o : Nat} {cs : List Char} {n : Node}
    (h : Within levels o cs n) (hle : levels ≤ levels') : Within levels' o cs n :=
  ⟨h.1, Nat.lt_of_lt_of_le h.2 hle⟩

theorem heightOfElements_lt_iff {ns : List Node} {levels : Nat} :
    heightOfElements ns < levels + 1 ↔ ∀ n ∈ ns, height n < levels := by
  induction ns with
  | nil => simp [heightOfElements]
  | cons n ns ih =>
      rw [heightOfElements, Nat.max_lt, ih, List.forall_mem_cons, Nat.add_lt_add_iff_right]

theorem heightOfMembers_lt_iff {ms : List (Member Node)} {levels : Nat} :
    heightOfMembers ms < levels + 1 ↔ ∀ m ∈ ms, height m.value < levels := by
  induction ms with
  | nil => simp [heightOfMembers]
  | cons m ms ih =>
      rw [heightOfMembers, Nat.max_lt, ih, List.forall_mem_cons, Nat.add_lt_add_iff_right]

/-- The elements of an array have one level less. -/
theorem within_array_iff {levels o : Nat} {cs : List Char} {ns : List Node} {span : Span} :
    Within (levels + 1) o cs (.array ns span) ↔
      span = spanOf o cs ∧ Bracketed '[' ']' (Within levels) o cs ns := by
  unfold Within
  rw [bracketed_and_iff, height, heightOfElements_lt_iff]
  constructor
  · rintro ⟨hvalue, hall⟩
    cases hvalue with
    | array helements => exact ⟨rfl, helements, hall⟩
  · rintro ⟨rfl, helements, hall⟩
    exact ⟨.array helements, hall⟩

/-- The members of an object have one level less. -/
theorem within_object_iff {levels o : Nat} {cs : List Char} {ms : List (Member Node)}
    {span : Span} :
    Within (levels + 1) o cs (.object ms span) ↔
      span = spanOf o cs ∧ Bracketed '{' '}' (Grammar.Member (Within levels)) o cs ms := by
  have hmember : Grammar.Member (Within levels) =
      fun o cs m => Grammar.Member Grammar.Value o cs m ∧ height m.value < levels := by
    funext o cs m
    exact propext member_and_iff
  rw [hmember, bracketed_and_iff, Within, height, heightOfMembers_lt_iff]
  constructor
  · rintro ⟨hvalue, hall⟩
    cases hvalue with
    | object hmembers => exact ⟨rfl, hmembers, hall⟩
  · rintro ⟨rfl, hmembers, hall⟩
    exact ⟨.object hmembers, hall⟩

/-- A number starts with its sign or with a digit. -/
theorem exists_head_of_numeral {cs : List Char} (h : Numeral cs) :
    ∃ c t, cs = c :: t ∧ (c = '-' ∨ c.isDigit = true) := by
  obtain ⟨hsign, hwhole, -, -⟩ := h
  rcases hsign with rfl | rfl
  · cases hwhole with
    | zero => exact ⟨'0', _, rfl, .inr rfl⟩
    | digits hdigits _ =>
        obtain ⟨c, t, rfl⟩ := List.exists_cons_of_ne_nil hdigits.1
        exact ⟨c, _, rfl, .inr (hdigits.2 c List.mem_cons_self)⟩
  · exact ⟨'-', _, rfl, .inl rfl⟩

theorem head_of_bracketed {α : Type} {R : Reading α} {opening close : Char} {o : Nat}
    {cs : List Char} {as : List α} (h : Bracketed opening close R o cs as) :
    ∃ t, cs = opening :: t := by
  cases h with
  | empty => exact ⟨_, rfl⟩
  | items => exact ⟨_, rfl⟩

theorem begins_value : Begins Grammar.Value := by
  intro o cs n h
  cases h with
  | null => simp [endsItem, isBlank]
  | true => simp [endsItem, isBlank]
  | false => simp [endsItem, isBlank]
  | number hnumber =>
      obtain ⟨c, t, rfl, hc⟩ := exists_head_of_numeral hnumber
      refine ⟨by simp, ?_⟩
      rw [stops_cons, ← Bool.not_eq_true]
      simp only [endsItem, Bool.or_eq_true, beq_iff_eq, isBlank_iff]
      rintro ((((rfl | rfl | rfl | rfl) | rfl) | rfl) | rfl) <;> simp at hc
  | string hstring =>
      cases hstring with
      | intro hcontent => simp [endsItem, isBlank]
  | array helements =>
      obtain ⟨t, rfl⟩ := head_of_bracketed helements
      simp [endsItem, isBlank]
  | object hmembers =>
      obtain ⟨t, rfl⟩ := head_of_bracketed hmembers
      simp [endsItem, isBlank]

theorem begins_within (levels : Nat) : Begins (Within levels) := fun _ _ _ h => begins_value h.1

theorem word_sound {w : String} {node : Span → Node} {s rest : Slice} {n : Node}
    (h : word w node s = .ok (n, rest)) : n = node (spanOf s.offset w.toList) ∧
      Took s w.toList rest := by
  rw [word] at h
  split at h
  · rename_i rest' hstrip
    simp only [Except.ok.injEq, Prod.mk.injEq] at h
    obtain ⟨rfl, rfl⟩ := h
    have htook := strip?_eq_some_iff.1 hstrip
    exact ⟨by rw [span_of_took htook], htook⟩
  · exact absurd h missing_ne_ok

theorem word_complete {w : String} {node : Span → Node} {s rest : Slice}
    (htook : Took s w.toList rest) :
    word w node s = .ok (node (spanOf s.offset w.toList), rest) := by
  rw [word, strip?_eq_some_iff.2 htook, ← span_of_took htook]

/-- What starts like a number is read as one. -/
theorem value_of_numeral_head {levels : Nat} {s : Slice} {c : Char} {t : List Char}
    (ht : s.text = c :: t) (hc : c = '-' ∨ c.isDigit = true) :
    value (levels + 1) s = (do
      let (raw, rest) ← number s
      return (.number raw ⟨s.offset, rest.offset⟩, rest)) := by
  have hother {d : Char} {t' : List Char} (ht' : s.text = d :: t')
      (hd : (d == '-' || d.isDigit) = false) : False := by
    obtain ⟨rfl, -⟩ := List.cons.inj (ht.symm.trans ht')
    simp_all
  unfold value
  split
  case h_1 ht' => exact (hother ht' rfl).elim
  case h_2 ht' => exact (hother ht' rfl).elim
  case h_3 ht' => exact (hother ht' rfl).elim
  case h_4 ht' => exact (hother ht' rfl).elim
  case h_5 ht' => exact (hother ht' rfl).elim
  case h_6 ht' => exact (hother ht' rfl).elim
  case h_7 d t' _ _ _ _ _ _ ht' =>
    obtain ⟨rfl, -⟩ := List.cons.inj (ht.symm.trans ht')
    rw [if_pos (by simpa using hc)]
  case h_8 ht' => exact absurd (ht.symm.trans ht') (List.cons_ne_nil _ _)

/-- **Soundness** of values, with the levels that are left. -/
theorem value_sound (levels : Nat) : Sound (value levels) (Within levels) := by
  -- the parts of an array or an object are read with one level less
  induction levels with
  | zero =>
      intro s rest n h
      simp [value] at h
  | succ levels ih =>
      intro s rest n h
      unfold value at h
      split at h
      · rename_i t ht
        obtain ⟨ms, hmembers, rfl⟩ :=
          (made_eq_ok_iff fun ms r => Node.object ms ⟨s.offset, r.offset⟩).1 h
        obtain ⟨cs, hmembers, htook⟩ :=
          bracketed_sound '{' (member_sound ih) (by rw [ht, List.head?_cons]) hmembers
        exact ⟨cs, within_object_iff.2 ⟨span_of_took htook, hmembers⟩, htook⟩
      · rename_i t ht
        obtain ⟨ns, helements, rfl⟩ :=
          (made_eq_ok_iff fun ns r => Node.array ns ⟨s.offset, r.offset⟩).1 h
        obtain ⟨cs, helements, htook⟩ :=
          bracketed_sound '[' ih (by rw [ht, List.head?_cons]) helements
        exact ⟨cs, within_array_iff.2 ⟨span_of_took htook, helements⟩, htook⟩
      · rename_i t ht
        obtain ⟨text, hstring, rfl⟩ :=
          (made_eq_ok_iff fun text r => Node.string text ⟨s.offset, r.offset⟩).1 h
        obtain ⟨cs, hliteral, htook⟩ := stringRest_sound (by rw [ht, List.head?_cons]) hstring
        rw [span_of_took htook]
        exact ⟨cs, ⟨.string hliteral, Nat.succ_pos levels⟩, htook⟩
      · obtain ⟨rfl, htook⟩ := word_sound h
        exact ⟨_, ⟨.true, Nat.succ_pos levels⟩, htook⟩
      · obtain ⟨rfl, htook⟩ := word_sound h
        exact ⟨_, ⟨.false, Nat.succ_pos levels⟩, htook⟩
      · obtain ⟨rfl, htook⟩ := word_sound h
        exact ⟨_, ⟨.null, Nat.succ_pos levels⟩, htook⟩
      · split at h
        · obtain ⟨raw, hnumber, rfl⟩ :=
            (made_eq_ok_iff fun raw r => Node.number raw ⟨s.offset, r.offset⟩).1 h
          obtain ⟨cs, hnumeral, htook, rfl⟩ := number_sound hnumber
          rw [span_of_took htook]
          exact ⟨cs, ⟨.number hnumeral, Nat.succ_pos levels⟩, htook⟩
        · exact absurd h missing_ne_ok
      · exact absurd h missing_ne_ok

/-- **Completeness** of values, with the levels that are left. -/
theorem value_complete (levels : Nat) : Complete (value levels) (Within levels) := by
  induction levels with
  | zero =>
      rintro s rest cs n ⟨-, hlevels⟩
      exact absurd hlevels (Nat.not_lt_zero _)
  | succ levels ih =>
      intro s rest cs n h htook hfollows
      cases h.1 with
      | null => simp [value, htook.text, word_complete htook]
      | true => simp [value, htook.text, word_complete htook]
      | false => simp [value, htook.text, word_complete htook]
      | number hnumber =>
          have hread := number_complete hnumber htook hfollows.stops
          obtain ⟨c, t, rfl, hc⟩ := exists_head_of_numeral hnumber
          simp only [value_of_numeral_head htook.text hc, hread, bind, Except.bind,
            span_of_took htook]
          rfl
      | string hstring =>
          have ht : s.text.head? = some '"' := by
            cases hstring with
            | intro hcontent => rw [htook.text]; rfl
          obtain ⟨t, ht⟩ := List.head?_eq_some_iff.1 ht
          simp only [value, ht, stringRest_complete hstring htook, bind, Except.bind,
            span_of_took htook]
          rfl
      | array _ =>
          obtain ⟨-, helements⟩ := within_array_iff.1 h
          have hread := bracketed_complete ih (begins_within levels) (.inl rfl) helements htook
          obtain ⟨t, ht⟩ := head_of_bracketed helements
          simp only [value, htook.text, ht, List.cons_append, hread, bind, Except.bind,
            span_of_took htook]
          rfl
      | object _ =>
          obtain ⟨-, hmembers⟩ := within_object_iff.1 h
          have hread := bracketed_complete (member_complete ih (begins_within levels))
            (begins_member _) (.inr rfl) hmembers htook
          obtain ⟨t, ht⟩ := head_of_bracketed hmembers
          simp only [value, htook.text, ht, List.cons_append, hread, bind, Except.bind,
            span_of_took htook]
          rfl

/-! ## documents -/

theorem behindMark_sound (text : List Char) :
    ∃ mark, (mark = [] ∨ mark = ['\ufeff']) ∧ Took ⟨0, text⟩ mark (behindMark text) := by
  rw [behindMark]
  cases hstrip : (⟨0, text⟩ : Slice).strip? ['\ufeff'] with
  | none => exact ⟨[], .inl rfl, took_nil _⟩
  | some rest => exact ⟨_, .inr rfl, strip?_eq_some_iff.1 hstrip⟩

/-- The mark in front of a text is not the start of a value. -/
theorem not_within_mark {levels o : Nat} {t : List Char} {n : Node} :
    ¬ Within levels o ('\ufeff' :: t) n := by
  intro h
  have htook : Took ⟨o, '\ufeff' :: t⟩ ('\ufeff' :: t) ⟨o + byteLength ('\ufeff' :: t), []⟩ :=
    ⟨by simp, rfl⟩
  -- the reader would have to take it, and there is no value that it tries
  have hread := value_complete levels h htook (by simp [Follows])
  cases levels with
  | zero => simp [value] at hread
  | succ levels =>
      simp only [value] at hread
      exact missing_ne_ok hread

theorem behindMark_complete {mark text : List Char} (hmark : mark = [] ∨ mark = ['\ufeff'])
    (hhead : text.head? ≠ some '\ufeff') :
    behindMark (mark ++ text) = ⟨byteLength mark, text⟩ := by
  rcases hmark with rfl | rfl
  · have hstrip : (⟨0, text⟩ : Slice).strip? ['\ufeff'] = none := by
      rw [Option.eq_none_iff_forall_not_mem]
      intro rest hrest
      have htook := strip?_eq_some_iff.1 hrest
      exact hhead (head?_of_took htook (List.cons_ne_nil _ _))
    rw [List.nil_append, behindMark, hstrip]
    rfl
  · have htook := took_append 0 ['\ufeff'] text
    rw [Nat.zero_add] at htook
    rw [behindMark, strip?_eq_some_iff.2 htook]
    rfl

theorem document_of_parse {text : List Char} {node : Node} (h : parse text = .ok node) :
    Document text node := by
  obtain ⟨mark, hmark, tmark⟩ := behindMark_sound text
  obtain ⟨before, hbefore, tbefore⟩ := skipBlanks_sound (behindMark text)
  rw [parse, bind_eq_ok_iff] at h
  obtain ⟨⟨node', rest⟩, hread, h⟩ := h
  obtain ⟨cs, ⟨hvalue, hheight⟩, tvalue⟩ := value_sound levelLimit hread
  obtain ⟨after, hafter, tafter⟩ := skipBlanks_sound rest
  simp only at h
  split at h
  · rename_i hempty
    simp only [pure, Except.pure, Except.ok.injEq] at h
    subst h
    have htook := (((tmark.trans tbefore).trans tvalue).trans tafter).text
    rw [List.isEmpty_iff.1 hempty, List.append_nil] at htook
    rw [(tmark.trans tbefore).offset, Nat.zero_add] at hvalue
    rw [show text = mark ++ before ++ cs ++ after from htook]
    exact .intro hmark hbefore hvalue hafter (Nat.le_of_lt_succ hheight)
  · contradiction

theorem parse_of_document {text : List Char} {node : Node} (h : Document text node) :
    parse text = .ok node := by
  obtain ⟨hmark, hbefore, hvalue, hafter, hheight⟩ := h
  rename_i mark before cs after
  have hwithin : Within levelLimit (byteLength (mark ++ before)) cs node :=
    ⟨hvalue, Nat.lt_succ_of_le hheight⟩
  have hhead : (before ++ (cs ++ after)).head? ≠ some '\ufeff' := by
    cases before with
    | nil =>
        obtain ⟨c, t, rfl⟩ := List.exists_cons_of_ne_nil (begins_value hvalue).1
        rintro ⟨⟩
        exact not_within_mark hwithin
    | cons c before =>
        rintro ⟨⟩
        exact absurd (hbefore _ List.mem_cons_self) (by decide)
  have hskip : skipBlanks ⟨byteLength mark, before ++ (cs ++ after)⟩ =
      ⟨byteLength (mark ++ before), cs ++ after⟩ := by
    rw [byteLength_append]
    exact skipBlanks_complete (took_append _ _ _) hbefore
      (stops_isBlank_append (begins_value hvalue) _)
  have hread := value_complete levelLimit hwithin (took_append _ cs after)
    (by simpa using follows_blanks hafter (t := []) (by simp [Follows]))
  have hend (o : Nat) : skipBlanks ⟨o, after⟩ = ⟨o + byteLength after, []⟩ :=
    skipBlanks_complete ⟨by simp, rfl⟩ hafter (stops_nil _)
  have hbehind := behindMark_complete hmark hhead
  rw [← List.append_assoc, ← List.append_assoc] at hbehind
  rw [parse, hbehind, hskip]
  simp only [hread, hend, bind, Except.bind]
  rfl

/-- **The parser accepts exactly the documents of the grammar**, and gives the value that the text
is written for; there is only one. -/
theorem parse_iff_document (text : List Char) :
    (∀ node, parse text = .ok node ↔ Document text node) ∧
      ∀ n₁ n₂, Document text n₁ → Document text n₂ → n₁ = n₂ := by
  refine ⟨fun node => ⟨document_of_parse, parse_of_document⟩, ?_⟩
  intro n₁ n₂ h₁ h₂
  exact Except.ok.inj ((parse_of_document h₁).symm.trans (parse_of_document h₂))

end LocaleAudit.Json
