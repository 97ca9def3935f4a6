import LocaleAudit.Proofs.Json.Span

/-!
# LocaleAudit.Proofs.Json.Decoded

What string literals stand for.  The content of a literal denotes one sequence of UTF-16 code units,
and the text is what these decode to, with one replacement character for each half of a surrogate
pair without its other half.

* `literals_decoded` — the literals that are read, and those inside a parsed text.
-/

namespace LocaleAudit.Json

open Text Text.Slice Text.Utf16 Grammar

/-- The content of a literal stands for a text: it denotes these code units and no others, the text
is what they decode to, and every unit is there again unless it is a lone half of a surrogate pair,
which is replaced. -/
def Decoded (content : List Char) (s : String) : Prop :=
  ∃ us, (∀ vs, Contents content vs ↔ vs = us) ∧ s.toList = decodeLossy us ∧
    units s.toList = mended us

theorem decoded_iff {content : List Char} {s : String} :
    Decoded content s ↔ ∃ us, Contents content us ∧ s = String.ofList (decodeLossy us) := by
  constructor
  · rintro ⟨us, hcontent, hs, -⟩
    exact ⟨us, (hcontent us).2 rfl, by rw [← hs, String.ofList_toList]⟩
  · rintro ⟨us, hcontent, rfl⟩
    refine ⟨us, fun vs => ⟨fun h => contents_unique h hcontent, ?_⟩, ?_, ?_⟩
    · rintro rfl
      exact hcontent
    · rw [String.toList_ofList]
    · rw [String.toList_ofList, units_decodeLossy (lt_of_contents hcontent)]

theorem literal_iff {cs : List Char} {s : String} :
    Literal cs s ↔ ∃ content, cs = '"' :: (content ++ ['"']) ∧ Decoded content s := by
  constructor
  · rintro ⟨hcontent⟩
    exact ⟨_, rfl, decoded_iff.2 ⟨_, hcontent, rfl⟩⟩
  · rintro ⟨content, rfl, hdecoded⟩
    obtain ⟨us, hcontent, rfl⟩ := decoded_iff.1 hdecoded
    exact .intro hcontent

/-- A literal inside a value, at any depth, and its span: a string, or the name of a member. -/
inductive Node.HasLiteral (root : Node) : String → Span → Prop
  | string {s : String} {span : Span} (h : root.Inside (.string s span)) : HasLiteral root s span
  | name {n : Node} {m : Member Node} (h : root.Inside n) (hm : m ∈ n.members) :
      HasLiteral root m.key.name m.key.span

/-- A literal inside a parsed value stands in the text where its span says. -/
theorem literal_of_hasLiteral {text : List Char} {root : Node} (h : parse text = .ok root)
    {s : String} {span : Span} (hs : root.HasLiteral s span) :
    ∃ cs, part? span.lo span.hi text = some cs ∧ Literal cs s := by
  cases hs with
  | string hinside =>
      obtain ⟨o, cs, hwithin, hstands⟩ := exists_of_inside (document_of_parse h) hinside
      have hmarks := marks_of_standsIn hstands (begins_value hwithin.1).1
      rw [← span_of_value hwithin.1] at hmarks
      cases hwithin.1 with
      | string hliteral => exact ⟨cs, hmarks.2, hliteral⟩
  | name hinside hm =>
      obtain ⟨cs, hmarks, hliteral⟩ := (faithful_of_parse h _ hinside).key _ hm
      exact ⟨cs, hmarks.2, hliteral⟩

/-- **String literals are decoded as UTF-16.**  What is read behind an opening quote is a content,
its closing quote, and the text that the content stands for, and nothing else is read; and so are
all the strings and names in a parsed text, each at its span. -/
theorem literals_decoded :
    (∀ (s rest : Slice) (value : String), stringRest s = .ok (value, rest) ↔
      ∃ content, Took s (content ++ ['"']) rest ∧ Decoded content value) ∧
    ∀ (text : List Char) (root : Node), parse text = .ok root →
      ∀ (s : String) (span : Span), root.HasLiteral s span →
        ∃ content, part? span.lo span.hi text = some ('"' :: (content ++ ['"'])) ∧
          Decoded content s := by
  constructor
  · intro s rest value
    constructor
    · intro h
      obtain ⟨content, us, hcontent, htook, hvalue⟩ := stringRest_eq_ok_iff.1 h
      exact ⟨content, htook, decoded_iff.2 ⟨us, hcontent, hvalue⟩⟩
    · rintro ⟨content, htook, hdecoded⟩
      obtain ⟨us, hcontent, hvalue⟩ := decoded_iff.1 hdecoded
      exact stringRest_eq_ok_iff.2 ⟨content, us, hcontent, htook, hvalue⟩
  · intro text root h s span hs
    obtain ⟨cs, hpart, hliteral⟩ := literal_of_hasLiteral h hs
    obtain ⟨content, rfl, hdecoded⟩ := literal_iff.1 hliteral
    exact ⟨content, hpart, hdecoded⟩

/-- A text with halves of surrogate pairs: a pair in the name, and in the value one second half and
two first halves, none of which belongs to the character that stands between them as it is. -/
def halves : List Char := "\x7b\"\\ud83D\\uDE00\":\"\\udc00\\ud83d😀\\ud83dA\"\x7d".toList

theorem literals_decoded_halves :
    parse halves = .ok (.object
      [⟨⟨"😀", ⟨1, 15⟩⟩, .string "\ufffd\ufffd😀\ufffdA" ⟨16, 41⟩, ⟨1, 41⟩⟩] ⟨0, 42⟩) ∧
    ∃ content, part? 16 41 halves = some ('"' :: (content ++ ['"'])) ∧
      Decoded content "\ufffd\ufffd😀\ufffdA" := by
  have hparse : parse halves = .ok (.object
      [⟨⟨"😀", ⟨1, 15⟩⟩, .string "\ufffd\ufffd😀\ufffdA" ⟨16, 41⟩, ⟨1, 41⟩⟩] ⟨0, 42⟩) := rfl
  refine ⟨hparse, literals_decoded.2 _ _ hparse _ ⟨16, 41⟩ (.string ?_)⟩
  exact .value (m := ⟨⟨"😀", ⟨1, 15⟩⟩, _, _⟩) .self (List.mem_singleton_self _)

end LocaleAudit.Json
