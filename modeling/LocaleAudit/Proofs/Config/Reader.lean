import LocaleAudit.Config.Basic
import LocaleAudit.Proofs.Config.Token
import LocaleAudit.Proofs.Json.Parser
import Mathlib.Data.List.Forall2

/-!
# LocaleAudit.Proofs.Config.Reader

The readers of values, lists and objects of a configuration against the grammar of JSON.  They skip
the blanks in front of a value themselves, and go from item to item with a count, so what is left
of a list or an object is described from each item on by `Ahead`.  The values are `Told` from the
nodes of the grammar.

* `items_sound`, `members_sound` — the items of a list and the members of an object;
* `anyValue_sound` — any value, with a limit on its levels.
-/

namespace LocaleAudit.Config

open Text Text.Slice Json Json.Grammar

/-! ## values and nodes -/

/-- A member with a name and a value that are related to those of a member with a place. -/
inductive Named {α β : Type} (P : α → β → Prop) : String × α → Json.Member β → Prop
  | intro {name : String} {keySpan span : Span} {a : α} {b : β} (h : P a b) :
      Named P (name, a) ⟨⟨name, keySpan⟩, b, span⟩

/-- A value that is read for a node of the grammar.  The members of an object are all there, in
their order, and of a number nothing is said but that it is one. -/
inductive Told : Value → Node → Prop
  | null {span : Span} : Told .null (.null span)
  | bool {b : Bool} {span : Span} : Told (.bool b) (.bool b span)
  | number {n : Number} {raw : String} {span : Span} : Told (.number n) (.number raw span)
  | string {text : String} {span : Span} : Told (.string text) (.string text span)
  | array {vs : List Value} {ns : List Node} {span : Span}
      (helements : List.Forall₂ Told vs ns) : Told (.array vs) (.array ns span)
  | object {ms : List (String × Value)} {members : List (Json.Member Node)} {span : Span}
      (hmembers : List.Forall₂ (Named Told) ms members) : Told (.object ms) (.object members span)

/-- What a reader takes is something of the grammar behind blanks, and what it gives is related to
it. -/
def Sound {α β : Type} (read : Reader α) (R : Reading β) (P : α → β → Prop) : Prop :=
  ∀ ⦃s rest : Slice⦄ ⦃a : α⦄, read s = .ok (a, rest) →
    ∃ before cs b, Blanks before ∧ R (s.offset + byteLength before) cs b ∧
      Took s (before ++ cs) rest ∧ P a b

/-! ## what is ahead -/

/-- What leads to an item: blanks, with a comma between them unless it is the first item. -/
inductive Leads : Bool → List Char → Prop
  | first {ws : List Char} (hws : Blanks ws) : Leads true ws
  | next {ws ws' : List Char} (hws : Blanks ws) (hws' : Blanks ws') : Leads false (ws ++ ',' :: ws')

/-- The items that are left of a list or an object, up to its closing bracket: each behind what
leads to it, and blanks behind the last one. -/
inductive Ahead {α : Type} (R : Reading α) : Bool → Reading (List α)
  | nil {first : Bool} {o : Nat} {ws : List Char} (hws : Blanks ws) : Ahead R first o ws []
  | cons {first : Bool} {o : Nat} {lead cs rest : List Char} {a : α} {as : List α}
      (hlead : Leads first lead) (hitem : R (o + byteLength lead) cs a)
      (hrest : Ahead R false (o + byteLength (lead ++ cs)) rest as) :
      Ahead R first o (lead ++ cs ++ rest) (a :: as)

theorem Leads.append {first : Bool} {lead ws : List Char} (h : Leads first lead)
    (hws : Blanks ws) : Leads first (lead ++ ws) := by
  have hblanks {before : List Char} (hbefore : Blanks before) : Blanks (before ++ ws) :=
    fun c hc => (List.mem_append.1 hc).elim (hbefore c) (hws c)
  cases h with
  | first hbefore => exact .first (hblanks hbefore)
  | next hbefore hbefore' =>
      rw [List.append_assoc, List.cons_append]
      exact .next hbefore (hblanks hbefore')

section ahead

variable {α : Type} {R : Reading α} {o : Nat} {a : α} {as : List α}

/-- An item and those ahead of it are items of the grammar. -/
theorem Ahead.items {ws cs rest : List Char} (hws : Blanks ws) (hitem : R (o + byteLength ws) cs a)
    (hrest : Ahead R false (o + byteLength (ws ++ cs)) rest as) :
    Items R o (ws ++ cs ++ rest) (a :: as) := by
  induction as generalizing o ws cs rest a with
  | nil =>
      cases hrest with
      | nil hafter => exact .one hws hitem hafter
  | cons a' as ih =>
      cases hrest with
      | @cons _ _ lead cs' rest' _ _ hlead hitem' hrest' =>
          cases hlead with
          | @next after ws' hafter hws' =>
              have hitems : Items R (o + byteLength (ws ++ cs ++ after ++ [',']))
                  (ws' ++ cs' ++ rest') (a' :: as) := by
                refine ih hws' ?_ ?_
                · simpa [byteLength_append, Nat.add_assoc] using hitem'
                · simpa [byteLength_append, Nat.add_assoc] using hrest'
              simpa using Items.cons hws hitem hafter hitems

theorem Ahead.bracketed {opening closing : Char} {cs : List Char}
    (h : Ahead R true (o + opening.utf8Size) cs as) :
    Bracketed opening closing R o (opening :: (cs ++ [closing])) as := by
  cases h with
  | nil hws => exact .empty hws
  | cons hlead hitem hrest =>
      cases hlead with
      | first hws => exact .items (hrest.items hws hitem)

/-- What is ahead behind an opening bracket, and the closing one. -/
theorem bracketed_of_took {opening closing : Char} {s rest : Slice} {cs t : List Char}
    (ht : s.text = opening :: t) (h : Ahead R true (s.drop 1).offset cs as)
    (htook : Took (s.drop 1) (cs ++ [closing]) rest) :
    ∃ cs', Bracketed opening closing R s.offset cs' as ∧ Took s cs' rest := by
  have topening := took_drop_one ht
  rw [topening.offset] at h
  exact ⟨_, h.bracketed, topening.trans htook⟩

end ahead

/-! ## lists -/

theorem skip_sound (s : Slice) : ∃ ws, Blanks ws ∧ Took s ws (skip s) := skipBlanks_sound s

theorem nextItem_none {first : Bool} {s : Slice} (h : nextItem first s = .ok none) :
    ∃ ws, Blanks ws ∧ Took s (ws ++ [']']) ((skip s).drop 1) := by
  obtain ⟨ws, hws, htook⟩ := skip_sound s
  unfold nextItem at h
  dsimp only at h
  split at h
  · simp at h
  · rename_i t ht
    exact ⟨ws, hws, htook.trans (took_drop_one ht)⟩
  · split at h
    · simp at h
    split at h
    · split at h <;> simp at h
    · simp at h

theorem nextItem_some {first : Bool} {s r : Slice} (h : nextItem first s = .ok (some r)) :
    ∃ lead, Leads first lead ∧ Took s lead r := by
  obtain ⟨ws, hws, htook⟩ := skip_sound s
  unfold nextItem at h
  dsimp only at h
  split at h
  · simp at h
  · simp at h
  · rename_i c t hclose ht
    split at h
    · rename_i hfirst
      simp only [Except.ok.injEq, Option.some.injEq] at h
      subst hfirst h
      exact ⟨ws, .first hws, htook⟩
    rename_i hfirst
    split at h
    · rename_i hcomma
      subst hcomma
      obtain ⟨ws', hws', htook'⟩ := skip_sound ((skip s).drop 1)
      have hall : Took s (ws ++ ',' :: ws') (skip ((skip s).drop 1)) :=
        htook.trans ((took_drop_one ht).trans htook')
      rw [Bool.not_eq_true] at hfirst
      subst hfirst
      split at h
      · simp at h
      · simp at h
      · simp only [Except.ok.injEq, Option.some.injEq] at h
        exact ⟨_, .next hws hws', h ▸ hall⟩
    · simp at h

section items

variable {α β : Type} {read : Reader α} {R : Reading β} {P : α → β → Prop}

/-- **Soundness** of the items of a list. -/
theorem items_sound (hread : Sound read R P) {left : Nat} {first : Bool} {s rest : Slice}
    {as : List α} (h : items read left first s = .ok (as, rest)) :
    ∃ cs bs, Ahead R first s.offset cs bs ∧ Took s (cs ++ [']']) rest ∧ List.Forall₂ P as bs := by
  induction left generalizing first s as with
  | zero => simp [items] at h
  | succ left ih =>
      rw [items, bind_eq_ok_iff] at h
      obtain ⟨next, hnext, h⟩ := h
      cases next with
      | none =>
          simp only [pure, Except.pure, Except.ok.injEq, Prod.mk.injEq] at h
          obtain ⟨rfl, rfl⟩ := h
          obtain ⟨ws, hws, htook⟩ := nextItem_none hnext
          exact ⟨ws, [], .nil hws, htook, .nil⟩
      | some s₁ =>
          obtain ⟨lead, hlead, tlead⟩ := nextItem_some hnext
          simp only [bind_eq_ok_iff] at h
          obtain ⟨⟨a, s₂⟩, hitem, ⟨as', s₃⟩, hrest, h⟩ := h
          simp only [pure, Except.pure, Except.ok.injEq, Prod.mk.injEq] at h
          obtain ⟨rfl, rfl⟩ := h
          obtain ⟨before, cs, b, hbefore, hb, titem, hP⟩ := hread hitem
          obtain ⟨cs', bs, hahead, trest, hPs⟩ := ih hrest
          have htook := tlead.trans titem
          rw [← List.append_assoc] at htook
          rw [tlead.offset, Nat.add_assoc, ← byteLength_append] at hb
          rw [htook.offset] at hahead
          refine ⟨_, b :: bs, .cons (hlead.append hbefore) hb hahead, ?_, .cons hP hPs⟩
          rw [List.append_assoc]
          exact htook.trans trest

end items

/-! ## objects -/

theorem nextName_none {first : Bool} {s : Slice} (h : nextName first s = .ok none) :
    ∃ ws, Blanks ws ∧ Took s (ws ++ ['\x7d']) ((skip s).drop 1) := by
  obtain ⟨ws, hws, htook⟩ := skip_sound s
  unfold nextName at h
  dsimp only at h
  split at h
  · simp at h
  · rename_i t ht
    exact ⟨ws, hws, htook.trans (took_drop_one ht)⟩
  · split at h
    · split at h <;> simp at h
    split at h
    · split at h <;> simp at h
    · simp at h

theorem nextName_some {first : Bool} {s r : Slice} (h : nextName first s = .ok (some r)) :
    ∃ lead s', Leads first lead ∧ Took s lead s' ∧ s'.text.head? = some '"' ∧ r = s'.drop 1 := by
  obtain ⟨ws, hws, htook⟩ := skip_sound s
  unfold nextName at h
  dsimp only at h
  split at h
  · simp at h
  · simp at h
  · rename_i c t hclose ht
    split at h
    · rename_i hfirst
      split at h
      · rename_i hquote
        simp only [Except.ok.injEq, Option.some.injEq] at h
        subst hfirst hquote
        exact ⟨ws, skip s, .first hws, htook, by rw [ht, List.head?_cons], h.symm⟩
      · simp at h
    rename_i hfirst
    split at h
    · rename_i hcomma
      subst hcomma
      obtain ⟨ws', hws', htook'⟩ := skip_sound ((skip s).drop 1)
      have hall : Took s (ws ++ ',' :: ws') (skip ((skip s).drop 1)) :=
        htook.trans ((took_drop_one ht).trans htook')
      rw [Bool.not_eq_true] at hfirst
      subst hfirst
      split at h
      · rename_i t' ht'
        simp only [Except.ok.injEq, Option.some.injEq] at h
        exact ⟨_, _, .next hws hws', hall, by rw [ht', List.head?_cons], h.symm⟩
      · simp at h
      · simp at h
      · simp at h
    · simp at h

theorem colon_sound {s rest : Slice} {u : Unit} (h : colon s = .ok (u, rest)) :
    ∃ ws, Blanks ws ∧ Took s (ws ++ [':']) rest := by
  obtain ⟨ws, hws, htook⟩ := skip_sound s
  unfold colon at h
  dsimp only at h
  split at h
  · simp at h
  · rename_i t ht
    simp only [Except.ok.injEq, Prod.mk.injEq] at h
    exact ⟨ws, hws, htook.trans (h.2 ▸ took_drop_one ht)⟩
  · simp at h

section members

variable {α : Type} {read : Reader α} {R : Reading Node} {P : α → Node → Prop}

/-- A name, a colon and a value are a member of the grammar. -/
theorem member_sound (hread : Sound read R P) {s s₁ s₂ rest : Slice} {name : String} {u : Unit}
    {a : α} (hquote : s.text.head? = some '"') (hname : stringRest (s.drop 1) = .ok (name, s₁))
    (hcolon : colon s₁ = .ok (u, s₂)) (hvalue : read s₂ = .ok (a, rest)) :
    ∃ cs keySpan n span, Grammar.Member R s.offset cs ⟨⟨name, keySpan⟩, n, span⟩ ∧
      Took s cs rest ∧ P a n := by
  obtain ⟨literal, hliteral, tliteral⟩ := stringRest_sound hquote hname
  obtain ⟨before, hbefore, tcolon⟩ := colon_sound hcolon
  obtain ⟨after, cs, n, hafter, hn, tvalue, hP⟩ := hread hvalue
  have htook := tliteral.trans tcolon
  rw [htook.offset, Nat.add_assoc, ← byteLength_append, ← List.append_assoc] at hn
  refine ⟨_, _, n, _, .intro hliteral hbefore hafter hn, ?_, hP⟩
  simpa using htook.trans tvalue

/-- **Soundness** of the members of an object. -/
theorem members_sound (hread : Sound read R P) {left : Nat} {first : Bool} {s rest : Slice}
    {ms : List (String × α)} (h : members read left first s = .ok (ms, rest)) :
    ∃ cs members, Ahead (Grammar.Member R) first s.offset cs members ∧
      Took s (cs ++ ['\x7d']) rest ∧ List.Forall₂ (Named P) ms members := by
  induction left generalizing first s ms with
  | zero => simp [members] at h
  | succ left ih =>
      rw [members, bind_eq_ok_iff] at h
      obtain ⟨next, hnext, h⟩ := h
      cases next with
      | none =>
          simp only [pure, Except.pure, Except.ok.injEq, Prod.mk.injEq] at h
          obtain ⟨rfl, rfl⟩ := h
          obtain ⟨ws, hws, htook⟩ := nextName_none hnext
          exact ⟨ws, [], .nil hws, htook, .nil⟩
      | some s₁ =>
          obtain ⟨lead, s', hlead, tlead, hquote, rfl⟩ := nextName_some hnext
          simp only [bind_eq_ok_iff] at h
          obtain ⟨⟨name, s₂⟩, hname, ⟨_, s₃⟩, hcolon, ⟨a, s₄⟩, ha, ⟨ms', s₅⟩, hrest, h⟩ := h
          simp only [pure, Except.pure, Except.ok.injEq, Prod.mk.injEq] at h
          obtain ⟨rfl, rfl⟩ := h
          obtain ⟨cs, keySpan, n, span, hmember, tmember, hP⟩ :=
            member_sound hread hquote hname hcolon ha
          obtain ⟨cs', members, hahead, trest, hPs⟩ := ih hrest
          have htook := tlead.trans tmember
          rw [tlead.offset] at hmember
          rw [htook.offset] at hahead
          refine ⟨_, _, .cons hlead hmember hahead, ?_, .cons (.intro hP) hPs⟩
          rw [List.append_assoc]
          exact htook.trans trest

end members

/-! ## values -/

/-- **Soundness** of values, with the levels that are left below them. -/
theorem anyValue_sound (levels : Nat) : Sound (anyValue levels) (Within (levels + 1)) Told := by
  -- the parts of a list or an object are read with one level less
  induction levels using Nat.strongRecOn with
  | ind levels ih =>
      intro s rest v h
      obtain ⟨before, hbefore, tbefore⟩ := skip_sound s
      -- what has no parts has no levels below it, and is read behind the blanks
      have hflat {cs : List Char} {n : Node} (hvalue : Grammar.Value (skip s).offset cs n)
          (hheight : height n = 0) (htook : Took (skip s) cs rest) (htold : Told v n) :
          ∃ before cs n, Blanks before ∧ Within (levels + 1) (s.offset + byteLength before) cs n ∧
            Took s (before ++ cs) rest ∧ Told v n := by
        rw [tbefore.offset] at hvalue
        exact ⟨before, cs, n, hbefore, ⟨hvalue, hheight ▸ Nat.succ_pos levels⟩,
          tbefore.trans htook, htold⟩
      unfold anyValue at h
      dsimp only at h
      split at h
      · simp at h
      · rename_i t ht
        obtain ⟨u, hword, rfl⟩ := (made_eq_ok_iff fun _ _ => Value.null).1 h
        exact hflat .null rfl ((took_drop_one ht).trans (wordRest_sound hword)) .null
      · rename_i t ht
        obtain ⟨u, hword, rfl⟩ := (made_eq_ok_iff fun _ _ => Value.bool true).1 h
        exact hflat .true rfl ((took_drop_one ht).trans (wordRest_sound hword)) .bool
      · rename_i t ht
        obtain ⟨u, hword, rfl⟩ := (made_eq_ok_iff fun _ _ => Value.bool false).1 h
        exact hflat .false rfl ((took_drop_one ht).trans (wordRest_sound hword)) .bool
      · rename_i t ht
        obtain ⟨text, htext, rfl⟩ := (made_eq_ok_iff fun text _ => Value.string text).1 h
        obtain ⟨cs, hliteral, htook⟩ := stringRest_sound (by rw [ht, List.head?_cons]) htext
        exact hflat (.string hliteral) rfl htook .string
      · rename_i t ht
        split at h
        · simp at h
        · rename_i levels
          obtain ⟨vs, hitems, rfl⟩ := (made_eq_ok_iff fun vs _ => Value.array vs).1 h
          obtain ⟨cs, ns, hahead, htook, htold⟩ :=
            items_sound (ih levels (Nat.lt_succ_self levels)) hitems
          obtain ⟨cs', hbracketed, htook'⟩ := bracketed_of_took ht hahead htook
          rw [tbefore.offset] at hbracketed
          exact ⟨before, cs', _, hbefore, within_array_iff.2 ⟨rfl, hbracketed⟩,
            tbefore.trans htook', .array htold⟩
      · rename_i t ht
        split at h
        · simp at h
        · rename_i levels
          obtain ⟨ms, hmembers, rfl⟩ := (made_eq_ok_iff fun ms _ => Value.object ms).1 h
          obtain ⟨cs, members, hahead, htook, htold⟩ :=
            members_sound (ih levels (Nat.lt_succ_self levels)) hmembers
          obtain ⟨cs', hbracketed, htook'⟩ := bracketed_of_took ht hahead htook
          rw [tbefore.offset] at hbracketed
          exact ⟨before, cs', _, hbefore, within_object_iff.2 ⟨rfl, hbracketed⟩,
            tbefore.trans htook', .object htold⟩
      · rename_i t ht
        obtain ⟨n, hnumber, rfl⟩ := (made_eq_ok_iff fun n _ => Value.number n).1 h
        obtain ⟨cs, hnumeral, htook⟩ := numberRest_sound hnumber
        exact hflat (.number (hnumeral ['-'] (.inr rfl))) rfl ((took_drop_one ht).trans htook)
          .number
      · split at h
        · obtain ⟨n, hnumber, rfl⟩ := (made_eq_ok_iff fun n _ => Value.number n).1 h
          obtain ⟨cs, hnumeral, htook⟩ := numberRest_sound hnumber
          exact hflat (.number (hnumeral [] (.inl rfl))) rfl htook .number
        · simp at h

theorem wrongType_ne_ok {α : Type} {expected : String} {s : Slice} {r : α} :
    wrongType expected s ≠ .ok r := by
  unfold wrongType
  split
  · simp
  · simp
  · simp [bind_eq_ok_iff]

/-- **Soundness** of strings. -/
theorem string_sound : Sound string (Within 1) fun text n => Told (.string text) n := by
  intro s rest text h
  obtain ⟨before, hbefore, tbefore⟩ := skip_sound s
  unfold string at h
  dsimp only at h
  split at h
  · simp at h
  · rename_i t ht
    obtain ⟨cs, hliteral, tliteral⟩ := stringRest_sound (by rw [ht, List.head?_cons]) h
    exact ⟨before, cs, _, hbefore, ⟨.string hliteral, Nat.zero_lt_one⟩, tbefore.trans tliteral,
      .string⟩
  · exact absurd h wrongType_ne_ok

/-- **Soundness** of lists of strings. -/
theorem strings_sound : Sound strings (Within 2) fun texts n => Told (stringsValue texts) n := by
  intro s rest texts h
  obtain ⟨before, hbefore, tbefore⟩ := skip_sound s
  unfold strings at h
  dsimp only at h
  split at h
  · simp at h
  · rename_i t ht
    obtain ⟨cs, ns, hahead, htook, htold⟩ := items_sound string_sound h
    obtain ⟨cs', hbracketed, htook'⟩ := bracketed_of_took ht hahead htook
    rw [tbefore.offset] at hbracketed
    exact ⟨before, cs', _, hbefore, within_array_iff.2 ⟨rfl, hbracketed⟩, tbefore.trans htook',
      .array (List.forall₂_map_left_iff.2 htold)⟩
  · exact absurd h wrongType_ne_ok

end LocaleAudit.Config
