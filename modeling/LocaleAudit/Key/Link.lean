import LocaleAudit.Json.Value
import LocaleAudit.Key.Set
import LocaleAudit.Text.Category
import LocaleAudit.Text.Lines

/-!
# LocaleAudit.Key.Link

Links from one message to another. A link is an at sign, perhaps a modifier behind a dot, a colon,
and a key, in parentheses or not. Periods at the end of a key belong to the sentence.

* `length_of_link?` — what is left behind a link is shorter.
-/

namespace LocaleAudit.Key

open Text

/-! ## links -/

/-- A character of a linked key. -/
def isLinkChar (c : Char) : Bool := isWordChar c || c == '-' || c == '|' || c == '.'

/-- What follows the modifier of a link, if there is one. -/
def behindModifier (text : List Char) : List Char :=
  match text with
  | '.' :: cs => if (cs.head?.map Char.isAlpha).getD false then cs.dropWhile Char.isAlpha else text
  | _ => text

/-- The longest key at the start of a text, and what follows it. -/
def keyRun? (text : List Char) : Option (List Char × List Char) :=
  let key := text.takeWhile isLinkChar
  if key.isEmpty then none else some (key, text.dropWhile isLinkChar)

/-- The key at the start of a text, in parentheses or not, and what follows it. -/
def linkKey? : List Char → Option (List Char × List Char)
  | '(' :: cs => match keyRun? cs with
    | some (key, ')' :: rest) => some (key, rest)
    | _ => none
  | cs => keyRun? cs

/-- The key of a link at the start of a text, and what follows the link. -/
def link? : List Char → Option (List Char × List Char)
  | '@' :: cs => match behindModifier cs with
    | ':' :: rest => linkKey? rest
    | _ => none
  | _ => none

theorem length_behindModifier_le (text : List Char) :
    (behindModifier text).length ≤ text.length := by
  unfold behindModifier
  split
  · rename_i cs
    split
    · have := (List.dropWhile_sublist Char.isAlpha (l := cs)).length_le
      simp only [List.length_cons]
      omega
    · exact Nat.le_refl _
  · exact Nat.le_refl _

theorem length_of_keyRun? {text key rest : List Char} (h : keyRun? text = some (key, rest)) :
    rest.length ≤ text.length := by
  simp only [keyRun?] at h
  split at h
  · simp at h
  · simp only [Option.some.injEq, Prod.mk.injEq] at h
    rw [← h.2]
    exact (List.dropWhile_sublist isLinkChar (l := text)).length_le

theorem length_of_linkKey? {text key rest : List Char} (h : linkKey? text = some (key, rest)) :
    rest.length ≤ text.length := by
  unfold linkKey? at h
  split at h
  · split at h
    · rename_i k r hr
      have := length_of_keyRun? hr
      simp only [Option.some.injEq, Prod.mk.injEq] at h
      obtain ⟨-, rfl⟩ := h
      simp only [List.length_cons] at *
      omega
    · simp at h
  · exact length_of_keyRun? h

theorem length_of_link? {text key rest : List Char} (h : link? text = some (key, rest)) :
    rest.length < text.length := by
  unfold link? at h
  split at h
  · rename_i cs
    split at h
    · rename_i r hr
      have := length_of_linkKey? h
      have := length_behindModifier_le cs
      simp only [hr, List.length_cons] at *
      omega
    · simp at h
  · simp at h

/-- The keys that a message links to, in order. -/
def links (message : List Char) : List (List Char) :=
  match message with
  | [] => []
  | c :: cs =>
    match _h : link? (c :: cs) with
    | some (key, rest) =>
      let key := trimEnd (· == '.') key
      if key.isEmpty then links rest else key :: links rest
    | none => links cs
termination_by message.length
decreasing_by
  · exact length_of_link? _h
  · exact length_of_link? _h
  · exact Nat.lt_succ_self _

/-! ## links in values -/

mutual

/-- The keys that the strings in a value link to. -/
def linksIn : Json.Value → List String
  | .string s => (links s.toList).map String.ofList
  | .array elements => linksInElements elements
  | .object members => linksInMembers members
  | _ => []

/-- The keys that the strings in the elements of an array link to. -/
def linksInElements : List Json.Value → List String
  | [] => []
  | v :: vs => linksIn v ++ linksInElements vs

/-- The keys that the strings in the members of an object link to. -/
def linksInMembers : List (String × Json.Value) → List String
  | [] => []
  | (_, v) :: ms => linksIn v ++ linksInMembers ms

end

end LocaleAudit.Key
