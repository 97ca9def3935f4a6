import LocaleAudit.Proofs.Json.Parser
import LocaleAudit.Proofs.Json.Place
import LocaleAudit.Proofs.Text.Part

/-!
# LocaleAudit.Proofs.Json.Span

Spans against the text.  What a text stands for does not depend on where it starts, so that a value
can be cut out at its span and parsed alone.

* `within_back` — a value that starts at another offset;
* `exists_of_inside` — each value inside a document is derived from a part of the text;
* `faithful_of_parse` — the spans of a parsed text are those of its parts.
-/

namespace LocaleAudit.Json

open Text Grammar

/-! ## other offsets -/

/-- A span, with offsets that count from a later place. -/
def Span.back (d : Nat) (s : Span) : Span := ⟨s.lo - d, s.hi - d⟩

mutual

/-- A node, with offsets that count from a later place. -/
def Node.back (d : Nat) : Node → Node
  | .null s => .null (s.back d)
  | .bool b s => .bool b (s.back d)
  | .number raw s => .number raw (s.back d)
  | .string t s => .string t (s.back d)
  | .array ns s => .array (elementsBack d ns) (s.back d)
  | .object ms s => .object (membersBack d ms) (s.back d)

/-- Elements, with offsets that count from a later place. -/
def elementsBack (d : Nat) : List Node → List Node
  | [] => []
  | n :: ns => n.back d :: elementsBack d ns

/-- Members, with offsets that count from a later place. -/
def membersBack (d : Nat) : List (Member Node) → List (Member Node)
  | [] => []
  | ⟨k, n, s⟩ :: ms => ⟨⟨k.name, k.span.back d⟩, n.back d, s.back d⟩ :: membersBack d ms

end

theorem elementsBack_eq_map (d : Nat) (ns : List Node) : elementsBack d ns = ns.map (·.back d) := by
  induction ns with
  | nil => rfl
  | cons n ns ih => rw [elementsBack, ih, List.map_cons]

theorem membersBack_eq_map (d : Nat) (ms : List (Member Node)) :
    membersBack d ms = ms.map fun m =>
      ⟨⟨m.key.name, m.key.span.back d⟩, m.value.back d, m.span.back d⟩ := by
  induction ms with
  | nil => rfl
  | cons m ms ih => rw [membersBack, ih, List.map_cons]

theorem back_spanOf (o d : Nat) (cs : List Char) : (spanOf (o + d) cs).back d = spanOf o cs := by
  rw [spanOf, Span.back, spanOf, Nat.add_sub_cancel, Nat.add_right_comm, Nat.add_sub_cancel]

section items

variable {α : Type} {R R' : Reading α} {f : α → α} {d : Nat}

/-- Items at another offset, if each item can be read there. -/
theorem items_back (hitem : ∀ o cs a, R (o + d) cs a → R' o cs (f a)) {o : Nat} {cs : List Char}
    {as : List α} (h : Items R (o + d) cs as) : Items R' o cs (as.map f) := by
  generalize hstart : o + d = start at h
  induction h generalizing o with
  | one hbefore ha hafter =>
      subst hstart
      rw [Nat.add_right_comm] at ha
      exact .one hbefore (hitem _ _ _ ha) hafter
  | cons hbefore ha hafter hrest ih =>
      subst hstart
      rw [Nat.add_right_comm] at ha
      exact .cons hbefore (hitem _ _ _ ha) hafter (ih (Nat.add_right_comm _ _ _))

theorem bracketed_back (hitem : ∀ o cs a, R (o + d) cs a → R' o cs (f a)) {opening closing : Char}
    {o : Nat} {cs : List Char} {as : List α} (h : Bracketed opening closing R (o + d) cs as) :
    Bracketed opening closing R' o cs (as.map f) := by
  cases h with
  | empty hblanks => exact .empty hblanks
  | items hitems =>
      rw [Nat.add_right_comm] at hitems
      exact .items (items_back hitem hitems)

end items

theorem member_back {R R' : Reading Node} {d : Nat}
    (hvalue : ∀ o cs n, R (o + d) cs n → R' o cs (n.back d)) {o : Nat} {cs : List Char}
    {m : Member Node} (h : Grammar.Member R (o + d) cs m) :
    Grammar.Member R' o cs ⟨⟨m.key.name, m.key.span.back d⟩, m.value.back d, m.span.back d⟩ := by
  cases h with
  | intro hliteral hbefore hafter hnode =>
      rw [Nat.add_right_comm] at hnode
      dsimp only
      rw [back_spanOf, back_spanOf]
      exact .intro hliteral hbefore hafter (hvalue _ _ _ hnode)

/-- **A value at another offset** is the same value, with its offsets counted from there. -/
theorem within_back (levels : Nat) {d o : Nat} {cs : List Char} {n : Node}
    (h : Within levels (o + d) cs n) : Within levels o cs (n.back d) := by
  -- the parts of an array or an object have one level less
  induction levels generalizing o cs n with
  | zero => exact absurd h.2 (Nat.not_lt_zero _)
  | succ levels ih =>
      have hleaf {m : Node} (hvalue : Grammar.Value o cs m) (hheight : height m = 0) :
          Within (levels + 1) o cs m := ⟨hvalue, by rw [hheight]; exact Nat.succ_pos levels⟩
      cases h.1 with
      | null =>
          rw [Node.back, back_spanOf]
          exact hleaf .null rfl
      | true =>
          rw [Node.back, back_spanOf]
          exact hleaf .true rfl
      | false =>
          rw [Node.back, back_spanOf]
          exact hleaf .false rfl
      | number hnumber =>
          rw [Node.back, back_spanOf]
          exact hleaf (.number hnumber) rfl
      | string hstring =>
          rw [Node.back, back_spanOf]
          exact hleaf (.string hstring) rfl
      | array _ =>
          obtain ⟨-, helements⟩ := within_array_iff.1 h
          rw [Node.back, back_spanOf, elementsBack_eq_map]
          exact within_array_iff.2 ⟨rfl, bracketed_back (fun _ _ _ => ih) helements⟩
      | object _ =>
          obtain ⟨-, hmembers⟩ := within_object_iff.1 h
          rw [Node.back, back_spanOf, membersBack_eq_map]
          exact within_object_iff.2
            ⟨rfl, bracketed_back (fun _ _ _ => member_back fun _ _ _ => ih) hmembers⟩

/-! ## values inside a value -/

/-- A value stands inside another one, at any depth. -/
inductive Node.Inside (root : Node) : Node → Prop
  | self : Inside root root
  | element {ns : List Node} {s : Span} {n : Node} (h : Inside root (.array ns s)) (hn : n ∈ ns) :
      Inside root n
  | value {ms : List (Member Node)} {s : Span} {m : Member Node} (h : Inside root (.object ms s))
      (hm : m ∈ ms) : Inside root m.value

/-- **Each value inside a document** is derived from a part of the text. -/
theorem exists_of_inside {text : List Char} {root n : Node} (h : Document text root)
    (hn : root.Inside n) :
    ∃ o cs, Within levelLimit o cs n ∧ StandsIn 0 text o cs := by
  induction hn with
  | self =>
      obtain ⟨hmark, hbefore, hvalue, hafter, hheight⟩ := h
      exact ⟨_, _, ⟨hvalue, Nat.lt_succ_of_le hheight⟩, _, _, rfl, (Nat.zero_add _).symm⟩
  | element _ hn ih =>
      obtain ⟨o, cs, harray, hstands⟩ := ih
      obtain ⟨-, helements⟩ := within_array_iff.1 harray
      obtain ⟨o', cs', hwithin, hstands'⟩ := exists_of_mem_bracketed helements hn
      exact ⟨o', cs', hwithin.mono (Nat.le_succ _), hstands.trans hstands'⟩
  | value _ hm ih =>
      obtain ⟨o, cs, hobject, hstands⟩ := ih
      obtain ⟨-, hmembers⟩ := within_object_iff.1 hobject
      obtain ⟨o', cs', hmember, hstands'⟩ := exists_of_mem_bracketed hmembers hm
      cases hmember with
      | @intro _ literal before after cs₂ _ _ _ _ _ hwithin =>
          refine ⟨_, cs₂, hwithin.mono (Nat.le_succ _), (hstands.trans hstands').trans ?_⟩
          exact ⟨literal ++ before ++ [':'] ++ after, [], by simp, rfl⟩

/-! ## spans -/

theorem span_of_value {o : Nat} {cs : List Char} {n : Node} (h : Grammar.Value o cs n) :
    n.span = spanOf o cs := by
  cases h <;> rfl

theorem span_of_member {R : Reading Node} {o : Nat} {cs : List Char} {m : Member Node}
    (h : Grammar.Member R o cs m) : m.span = spanOf o cs := by
  cases h
  rfl

/-- A member goes from its name to its value, and its name ends before its value starts. -/
theorem ends_of_member {o : Nat} {cs : List Char} {m : Member Node}
    (h : Grammar.Member Grammar.Value o cs m) :
    m.span = ⟨m.key.span.lo, m.value.span.hi⟩ ∧ m.key.span.hi < m.value.span.lo := by
  cases h with
  | intro _ _ _ hvalue =>
      have hcolon : byteLength [':'] = 1 := rfl
      simp only [span_of_value hvalue, spanOf, byteLength_append, hcolon, Span.mk.injEq, true_and]
      omega

section spans

variable {α : Type} {R : Reading α} {place : α → Span}

/-- Items stand one behind the other. -/
theorem spans_of_items (hplace : ∀ o cs a, R o cs a → place a = spanOf o cs) {o : Nat}
    {cs : List Char} {as : List α} (h : Items R o cs as) :
    (∀ s ∈ as.map place, o ≤ s.lo ∧ s.hi ≤ o + byteLength cs) ∧
      (as.map place).Pairwise fun s t => s.hi < t.lo := by
  induction h with
  | one _ ha _ =>
      simp only [List.map_singleton, List.mem_singleton, forall_eq, List.pairwise_singleton,
        and_true, hplace _ _ _ ha, spanOf, byteLength_append]
      omega
  | cons _ ha _ _ ih =>
      obtain ⟨hin, hpairwise⟩ := ih
      have hcomma : byteLength [','] = 1 := rfl
      simp only [byteLength_append, hcomma] at hin
      simp only [List.map_cons, List.forall_mem_cons, List.pairwise_cons, hplace _ _ _ ha, spanOf,
        byteLength_append, hcomma]
      refine ⟨⟨by omega, fun s hs => ?_⟩, fun s hs => ?_, hpairwise⟩
      · have := hin s hs
        omega
      · have := hin s hs
        omega

/-- Items in brackets stand between the brackets. -/
theorem spans_of_bracketed (hplace : ∀ o cs a, R o cs a → place a = spanOf o cs)
    {opening closing : Char} {o : Nat} {cs : List Char} {as : List α}
    (h : Bracketed opening closing R o cs as) :
    (∀ s ∈ as.map place, o < s.lo ∧ s.hi < o + byteLength cs) ∧
      (as.map place).Pairwise fun s t => s.hi < t.lo := by
  cases h with
  | empty => exact ⟨by simp, .nil⟩
  | items hitems =>
      obtain ⟨hin, hpairwise⟩ := spans_of_items hplace hitems
      refine ⟨fun s hs => ?_, hpairwise⟩
      have hopening := opening.utf8Size_pos
      have hclosing := closing.utf8Size_pos
      have hs := hin s hs
      simp only [byteLength_cons, byteLength_append, byteLength_nil]
      omega

end spans

/-! ## faithful spans -/

/-- A span marks a text that is not empty: it starts in front of the text and ends behind it. -/
def Span.Marks (text : List Char) (s : Span) (cs : List Char) : Prop :=
  s.lo < s.hi ∧ part? s.lo s.hi text = some cs

/-- Where the members of an object and the elements of an array stand. -/
def Node.itemSpans : Node → List Span
  | .array ns _ => ns.map Node.span
  | .object ms _ => ms.map Member.span
  | _ => []

/-- The spans of a value and of its members are those of parts of the text. -/
structure Node.Faithful (text : List Char) (n : Node) : Prop where
  /-- The part for the value, parsed alone, is the value. -/
  value : ∃ cs, n.span.Marks text cs ∧ parse cs = .ok (n.back n.span.lo)
  /-- Members and elements stand inside the value. -/
  inside : ∀ s ∈ n.itemSpans, n.span.lo < s.lo ∧ s.hi < n.span.hi
  /-- They stand one behind the other. -/
  apart : n.itemSpans.Pairwise fun s t => s.hi < t.lo
  /-- The part for the name of a member is a literal for the name. -/
  key : ∀ m ∈ n.members, ∃ cs, m.key.span.Marks text cs ∧ Literal cs m.key.name
  /-- A member goes from its name to its value. -/
  member : ∀ m ∈ n.members, m.span = ⟨m.key.span.lo, m.value.span.hi⟩ ∧
    m.key.span.hi < m.value.span.lo ∧ ∃ cs, m.span.Marks text cs

theorem marks_of_standsIn {text cs : List Char} {o : Nat} (h : StandsIn 0 text o cs)
    (hne : cs ≠ []) : (spanOf o cs).Marks text cs := by
  obtain ⟨before, after, htext, ho⟩ := h
  rw [Nat.zero_add] at ho
  refine ⟨Nat.lt_add_of_pos_right (byteLength_pos hne), part?_eq_some_iff.2 ?_⟩
  exact ⟨before, after, htext, ho, by rw [spanOf, ho]⟩

/-- A part of a text that a value is derived from is a document of its own. -/
theorem parse_part {o : Nat} {cs : List Char} {n : Node} (h : Within levelLimit o cs n) :
    parse cs = .ok (n.back n.span.lo) := by
  rw [← Nat.zero_add o] at h
  have hback := within_back levelLimit h
  have hdocument : Document ([] ++ [] ++ cs ++ []) (n.back o) :=
    .intro (.inl rfl) blanks_nil hback.1 blanks_nil (Nat.le_of_lt_succ hback.2)
  have hlo : n.span.lo = o := by rw [span_of_value h.1, spanOf, Nat.zero_add]
  rw [hlo]
  simpa using parse_of_document hdocument

theorem items_of_within {o : Nat} {cs : List Char} {n : Node} (h : Within levelLimit o cs n) :
    (∀ s ∈ n.itemSpans, n.span.lo < s.lo ∧ s.hi < n.span.hi) ∧
      n.itemSpans.Pairwise fun s t => s.hi < t.lo := by
  have hspan := span_of_value h.1
  cases n with
  | array ns s =>
      obtain ⟨-, helements⟩ := within_array_iff.1 h
      rw [hspan]
      exact spans_of_bracketed (fun _ _ _ hn => span_of_value hn.1) helements
  | object ms s =>
      obtain ⟨-, hmembers⟩ := within_object_iff.1 h
      rw [hspan]
      exact spans_of_bracketed (fun _ _ _ hm => span_of_member hm) hmembers
  | null => exact ⟨by simp [Node.itemSpans], .nil⟩
  | bool => exact ⟨by simp [Node.itemSpans], .nil⟩
  | number => exact ⟨by simp [Node.itemSpans], .nil⟩
  | string => exact ⟨by simp [Node.itemSpans], .nil⟩

/-- The members of a value that is derived from a part of a text. -/
theorem member_of_within {text cs : List Char} {o : Nat} {n : Node} (h : Within levelLimit o cs n)
    (hstands : StandsIn 0 text o cs) {m : Member Node} (hm : m ∈ n.members) :
    (∃ literal, m.key.span.Marks text literal ∧ Literal literal m.key.name) ∧
      m.span = ⟨m.key.span.lo, m.value.span.hi⟩ ∧ m.key.span.hi < m.value.span.lo ∧
      ∃ cs', m.span.Marks text cs' := by
  cases n with
  | object ms s =>
      obtain ⟨-, hmembers⟩ := within_object_iff.1 h
      obtain ⟨o', cs', hmember, hstands'⟩ := exists_of_mem_bracketed hmembers hm
      have hwhole := hstands.trans hstands'
      have hmarks := marks_of_standsIn hwhole (begins_member _ hmember).1
      rw [← span_of_member hmember] at hmarks
      obtain ⟨hspan, hbefore⟩ := ends_of_member (member_and_iff.1 hmember).1
      refine ⟨?_, hspan, hbefore, cs', hmarks⟩
      cases hmember with
      | @intro _ literal before after cs₂ _ _ hliteral _ _ _ =>
          have hname : StandsIn o' (literal ++ before ++ [':'] ++ after ++ cs₂) o' literal :=
            ⟨[], before ++ [':'] ++ after ++ cs₂, by simp, rfl⟩
          refine ⟨literal, marks_of_standsIn (hwhole.trans hname) ?_, hliteral⟩
          cases hliteral with
          | intro => exact List.cons_ne_nil _ _
  | null => contradiction
  | bool => contradiction
  | number => contradiction
  | string => contradiction
  | array => contradiction

/-- **Spans are faithful**: each value inside the value that a text is parsed to has the span of a
part of the text which stands for it alone, and so have its members and their names. -/
theorem faithful_of_parse {text : List Char} {root : Node} (h : parse text = .ok root) :
    ∀ n, root.Inside n → n.Faithful text := by
  intro n hn
  obtain ⟨o, cs, hwithin, hstands⟩ := exists_of_inside (document_of_parse h) hn
  have hmarks := marks_of_standsIn hstands (begins_value hwithin.1).1
  rw [← span_of_value hwithin.1] at hmarks
  obtain ⟨hinside, hapart⟩ := items_of_within hwithin
  exact {
    value := ⟨cs, hmarks, parse_part hwithin⟩
    inside := hinside
    apart := hapart
    key := fun m hm => (member_of_within hwithin hstands hm).1
    member := fun m hm => (member_of_within hwithin hstands hm).2 }

/-- The spans of a list inside an object, behind a name that is not ASCII. -/
theorem faithful_of_parse_list :
    parse "\x7b\"é\": [1, null]\x7d".toList = .ok (.object
      [⟨⟨"é", ⟨1, 5⟩⟩, .array [.number "1" ⟨8, 9⟩, .null ⟨11, 15⟩] ⟨7, 16⟩, ⟨1, 16⟩⟩] ⟨0, 17⟩) ∧
    (Node.array [.number "1" ⟨8, 9⟩, .null ⟨11, 15⟩] ⟨7, 16⟩).Faithful
      "\x7b\"é\": [1, null]\x7d".toList :=
  have hparse : parse "\x7b\"é\": [1, null]\x7d".toList = .ok (.object
      [⟨⟨"é", ⟨1, 5⟩⟩, .array [.number "1" ⟨8, 9⟩, .null ⟨11, 15⟩] ⟨7, 16⟩, ⟨1, 16⟩⟩]
      ⟨0, 17⟩) := rfl
  ⟨hparse, faithful_of_parse hparse _
    (.value (m := ⟨⟨"é", ⟨1, 5⟩⟩, _, _⟩) .self (List.mem_singleton_self _))⟩

end LocaleAudit.Json
