import LocaleAudit.Proofs.Json.Grammar
import LocaleAudit.Proofs.Json.Node

/-!
# LocaleAudit.Proofs.Json.Place

Where the names of properties stand.  The spans in a node are those of its derivation, and so each
name has the span of a literal of the text.

* `literal_of_document` — the literal of a property of a document.
-/

namespace LocaleAudit.Json.Grammar

open Text

/-- A text stands in another one, which starts at an offset, at another offset. -/
def StandsIn (o : Nat) (whole : List Char) (o' : Nat) (part : List Char) : Prop :=
  ∃ before after, whole = before ++ part ++ after ∧ o' = o + byteLength before

theorem StandsIn.trans {o₁ o₂ o₃ : Nat} {cs₁ cs₂ cs₃ : List Char} (h₁ : StandsIn o₁ cs₁ o₂ cs₂)
    (h₂ : StandsIn o₂ cs₂ o₃ cs₃) : StandsIn o₁ cs₁ o₃ cs₃ := by
  obtain ⟨before₁, after₁, rfl, rfl⟩ := h₁
  obtain ⟨before₂, after₂, rfl, rfl⟩ := h₂
  refine ⟨before₁ ++ before₂, after₂ ++ after₁, by simp only [List.append_assoc], ?_⟩
  rw [byteLength_append, Nat.add_assoc]

/-- Each item of a sequence stands in it. -/
theorem exists_of_mem_items {α : Type} {R : Reading α} {o : Nat} {cs : List Char} {as : List α}
    (h : Items R o cs as) {a : α} (ha : a ∈ as) : ∃ o' cs', R o' cs' a ∧ StandsIn o cs o' cs' := by
  induction h with
  | @one o before cs after a' hbefore hitem hafter =>
      obtain rfl := List.mem_singleton.1 ha
      exact ⟨_, cs, hitem, before, after, rfl, rfl⟩
  | @cons o before cs after rest a' as hbefore hitem hafter hrest ih =>
      rcases List.mem_cons.1 ha with rfl | ha
      · exact ⟨_, cs, hitem, before, after ++ [','] ++ rest, by simp, rfl⟩
      · obtain ⟨o', cs', hitem', hstands⟩ := ih ha
        have hrest' : StandsIn o (before ++ cs ++ after ++ [','] ++ rest)
            (o + byteLength (before ++ cs ++ after ++ [','])) rest := ⟨_, [], by simp, rfl⟩
        exact ⟨o', cs', hitem', hrest'.trans hstands⟩

theorem exists_of_mem_bracketed {α : Type} {R : Reading α} {opening closing : Char} {o : Nat}
    {cs : List Char} {as : List α} (h : Bracketed opening closing R o cs as) {a : α}
    (ha : a ∈ as) : ∃ o' cs', R o' cs' a ∧ StandsIn o cs o' cs' := by
  cases h with
  | empty => contradiction
  | @items _ cs _ hitems =>
      obtain ⟨o', cs', hitem, hstands⟩ := exists_of_mem_items hitems ha
      have hinner : StandsIn o (opening :: (cs ++ [closing])) (o + opening.utf8Size) cs :=
        ⟨[opening], [closing], by simp, by simp⟩
      exact ⟨o', cs', hitem, hinner.trans hstands⟩

/-- The name of a property is a literal in the text of the value. -/
theorem literal_of_value {n : Node} {p : Property} (hp : p ∈ properties n) {o : Nat}
    {cs : List Char} (h : Value o cs n) :
    ∃ o' literal, Literal literal p.2.key.name ∧ p.2.key.span = spanOf o' literal ∧
      StandsIn o cs o' literal := by
  induction n using Node.member_induction generalizing p o cs with
  | step n ih =>
      obtain ⟨m, hm, hp⟩ := mem_properties.1 hp
      cases h with
      | object hmembers =>
          obtain ⟨o₁, cs₁, hmember, hstands⟩ := exists_of_mem_bracketed hmembers hm
          cases hmember with
          | @intro _ literal before after cs₂ name node hliteral _ _ hvalue =>
              have hname : StandsIn o₁ (literal ++ before ++ [':'] ++ after ++ cs₂) o₁ literal :=
                ⟨[], before ++ [':'] ++ after ++ cs₂, by simp, rfl⟩
              have hbelow : StandsIn o₁ (literal ++ before ++ [':'] ++ after ++ cs₂) _ cs₂ :=
                ⟨literal ++ before ++ [':'] ++ after, [], by simp, rfl⟩
              rcases hp with rfl | ⟨q, hq, rfl⟩
              · exact ⟨o₁, literal, hliteral, rfl, hstands.trans hname⟩
              · obtain ⟨o₃, literal', hliteral', hspan, hstands'⟩ := ih _ hm hq hvalue
                exact ⟨o₃, literal', hliteral', hspan, (hstands.trans hbelow).trans hstands'⟩
      | null => contradiction
      | true => contradiction
      | false => contradiction
      | number => contradiction
      | string => contradiction
      | array => contradiction

/-- **The name of a property** of a document is a literal in its text, where its span says. -/
theorem literal_of_document {text : List Char} {n : Node} (h : Document text n) {p : Property}
    (hp : p ∈ properties n) :
    ∃ before literal after, text = before ++ literal ++ after ∧ Literal literal p.2.key.name ∧
      p.2.key.span = spanOf (byteLength before) literal := by
  cases h with
  | @intro mark before cs after n hmark hbefore hvalue hafter hheight =>
      obtain ⟨o, literal, hliteral, hspan, before', after', rfl, rfl⟩ := literal_of_value hp hvalue
      refine ⟨mark ++ before ++ before', literal, after' ++ after, by simp, hliteral, ?_⟩
      rw [hspan, byteLength_append (mark ++ before)]

end LocaleAudit.Json.Grammar
