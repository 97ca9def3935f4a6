import LocaleAudit.Text.Category
import LocaleAudit.Text.Slice

/-!
# LocaleAudit.Component.Block

The blocks of a single-file component: its scripts and its template. Names of tags are compared
without regard to case, except for the tag that closes the template.

* `length_of_scriptBlock?` — what is left behind a script is shorter.
-/

namespace LocaleAudit.Component

open Text

/-- A block of a component. -/
structure Block where
  /-- What is in it. -/
  content : Slice
  /-- Its `lang` attribute. -/
  lang : Option String
deriving Repr, DecidableEq

/-! ## tags -/

/-- A letter without its case. The long s and the Kelvin sign are the only characters beyond ASCII
that have a lower case in it. -/
def foldCase (c : Char) : Char :=
  if c = 'ſ' then 's' else if c = '\u212a' then 'k' else c.toLower

/-- What follows a mark at the start of a text, whatever the case of its letters. -/
def stripFolded? : List Char → List Char → Option (List Char)
  | [], text => some text
  | _ :: _, [] => none
  | m :: ms, c :: cs => if foldCase c = m then stripFolded? ms cs else none

theorem length_of_stripFolded? {mark text rest : List Char}
    (h : stripFolded? mark text = some rest) : rest.length + mark.length = text.length := by
  fun_induction stripFolded? mark text with
  | case1 => simp_all
  | case2 => simp at h
  | case3 ms c cs ih =>
    have := ih h
    simp only [List.length_cons]
    omega
  | case4 => simp at h

/-- A tag that opens a block, at the start of a slice: its attributes and what follows it. The first
closing angle bracket ends it, even inside a quoted value. -/
def openTag? (name : List Char) (s : Slice) : Option (Slice × Slice) :=
  match stripFolded? ('<' :: name) s.text with
  | none => none
  | some rest =>
    if (rest.head?.map isWordChar).getD false then none
    else (s.drop (name.length + 1)).breakOn? ['>']

/-- What follows a tag that closes a script, at the start of a text. -/
def scriptEnd? (text : List Char) : Option (List Char) :=
  match stripFolded? "</script".toList text with
  | none => none
  | some rest => behind? ['>'] (rest.dropWhile isBlank)

theorem length_of_openTag? {name : List Char} {s inner rest : Slice}
    (h : openTag? name s = some (inner, rest)) : rest.text.length < s.text.length := by
  unfold openTag? at h
  split at h
  · simp at h
  · rename_i t ht
    split at h
    · simp at h
    · have := Slice.length_of_breakOn? h
      have := length_of_stripFolded? ht
      simp only [Slice.drop, List.length_drop, List.length_cons] at *
      omega

theorem length_of_scriptEnd? {text rest : List Char} (h : scriptEnd? text = some rest) :
    rest.length ≤ text.length := by
  unfold scriptEnd? at h
  split at h
  · simp at h
  · rename_i t ht
    have := length_of_behind? h
    have := (List.dropWhile_sublist isBlank (l := t)).length_le
    have := length_of_stripFolded? ht
    omega

/-! ## the `lang` attribute -/

/-- The quoted value of a `lang` attribute at the start of a text. -/
def langValue? (text : List Char) : Option (List Char) := do
  let behindName ← behind? "lang".toList text
  let behindSign ← behind? ['='] (behindName.dropWhile isBlank)
  let isQuote := fun c => c == '"' || c == '\''
  match behindSign.dropWhile isBlank with
  | quote :: rest =>
    let value := rest.takeWhile (!isQuote ·)
    if isQuote quote && !value.isEmpty && value.length < rest.length then some value else none
  | [] => none

/-- The value of the first `lang` attribute in a text; a word that ends in `lang` is none. -/
def findLang? (behindWord : Bool) : List Char → Option (List Char)
  | [] => none
  | c :: cs =>
    match if behindWord then none else langValue? (c :: cs) with
    | some value => some value
    | none => findLang? (isWordChar c) cs

/-- A block from its attributes and its content. -/
def Block.ofParts (attributes content : Slice) : Block :=
  ⟨content, (findLang? false attributes.text).map String.ofList⟩

/-! ## blocks -/

/-- A script at the start of a slice, and what follows it. -/
def scriptBlock? (s : Slice) : Option (Block × Slice) :=
  match openTag? "script".toList s with
  | none => none
  | some (attributes, inner) =>
    (inner.breakAt? scriptEnd?).map fun (content, rest) => (.ofParts attributes content, rest)

theorem length_of_scriptBlock? {s rest : Slice} {b : Block}
    (h : scriptBlock? s = some (b, rest)) : rest.text.length < s.text.length := by
  unfold scriptBlock? at h
  split at h
  · simp at h
  · rename_i attributes inner ht
    simp only [Option.map_eq_some_iff, Prod.mk.injEq] at h
    obtain ⟨⟨content, r⟩, hr, -, rfl⟩ := h
    have := length_of_openTag? ht
    have := Slice.length_of_breakAt? length_of_scriptEnd? hr
    simp only
    omega

/-- The scripts in a slice, in order. -/
def scriptsIn (s : Slice) : List Block :=
  if _hs : s.text = [] then []
  else match _h : scriptBlock? s with
    | some (block, rest) => block :: scriptsIn rest
    | none => scriptsIn (s.drop 1)
termination_by s.text.length
decreasing_by
  · exact length_of_scriptBlock? _h
  · have := List.length_pos_iff.2 _hs
    simp only [Slice.drop, List.length_drop]
    omega

/-- The scripts of a component, in order. -/
def scriptBlocks (text : List Char) : List Block := scriptsIn ⟨0, text⟩

/-- The first tag in a slice that opens a template: its attributes and what follows it. -/
def findTemplate? (s : Slice) : Option (Slice × Slice) :=
  if _hs : s.text = [] then none
  else match openTag? "template".toList s with
    | some found => some found
    | none => findTemplate? (s.drop 1)
termination_by s.text.length
decreasing_by
  have := List.length_pos_iff.2 _hs
  simp only [Slice.drop, List.length_drop]
  omega

/-- The template of a component, which reaches up to the last closing tag. -/
def templateBlock? (text : List Char) : Option Block := do
  let (attributes, inner) ← findTemplate? ⟨0, text⟩
  let content ← Slice.beforeLast? "</template>".toList inner.text
  some (.ofParts attributes ⟨inner.offset, content⟩)

end LocaleAudit.Component
