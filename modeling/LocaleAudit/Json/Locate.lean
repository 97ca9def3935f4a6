import LocaleAudit.Json.Node

/-!
# LocaleAudit.Json.Locate

Finding the member of an object that a dotted path names. The path is the chain of names from the
outermost object down to the member, joined by dots; names may hold dots themselves, be empty or
repeat, and the first member in the order of the text counts.
-/

namespace LocaleAudit.Json

/-- What follows a name and a dot at the start of a path. -/
def below? (name path : List Char) : Option (List Char) :=
  match Text.behind? name path with
  | some ('.' :: rest) => some rest
  | _ => none

mutual

/-- The first member of an object that a path names. -/
def Node.find? (path : List Char) : Node → Option (Member Node)
  | .object members _ => findMember? path members
  | _ => none

/-- The first of some members, or of the members below them, that a path names. -/
def findMember? (path : List Char) : List (Member Node) → Option (Member Node)
  | [] => none
  | ⟨key, value, span⟩ :: rest =>
    if path = key.name.toList then some ⟨key, value, span⟩
    else
      match (below? key.name.toList path).bind fun path => value.find? path with
      | some found => some found
      | none => findMember? path rest

end

end LocaleAudit.Json
