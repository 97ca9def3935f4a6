import LocaleAudit.Proofs.Config.Parser
import LocaleAudit.Proofs.Config.Pretty

/-!
# LocaleAudit.Proofs.Config.RoundTrip

A configuration that has been read is written and read again.  What is written does not tell how
the locale sources were given: a list that was read as one source is written as an object, and a
list of one pattern would be read as one source.  The latter is never the result of reading, so
what is read is `Readable`, and that is all that is needed to read it again.

* `parse_text_of_readable` — the text of a configuration with such sources;
* `parse_text` — that of a configuration that has been read.
-/

namespace LocaleAudit.Config

open Text hiding isBlank
open Text.Slice Json Json.Grammar LocaleAudit.Locale

/-! ## locale sources -/

/-- An entry is read from its value. -/
theorem sourceOf?_entryValue (entry : LocaleEntry) : sourceOf? (entryValue entry) = some entry := by
  cases entry with
  | pattern text => rfl
  | source text layout => cases layout <;> rfl

/-- A value that is read as a pattern is the pattern. -/
theorem eq_string_of_sourceOf? {v : Value} {text : String}
    (h : sourceOf? v = some (.pattern text)) : v = .string text := by
  unfold sourceOf? at h
  split at h
  · rw [LocaleEntry.pattern.inj (Option.some.inj h)]
  · obtain ⟨-, -, h⟩ := Option.bind_eq_some_iff.1 h
    obtain ⟨v, -, h⟩ := Option.bind_eq_some_iff.1 h
    split at h
    · simp [Option.bind_eq_some_iff] at h
    · contradiction
  · simp at h
  · simp [Option.bind_eq_some_iff] at h
  · contradiction

/-- Entries that are one source as a list are a pattern, or a pattern and the name of a layout. -/
theorem entries_of_sourceOf? {entries : List LocaleEntry} {entry : LocaleEntry}
    (h : sourceOf? (.array (entries.map entryValue)) = some entry) :
    (∃ text, entries = [.pattern text]) ∨
      ∃ text name layout, entries = [.pattern text, .pattern name] ∧
        layoutOfName? name = some layout := by
  rcases entries with _ | ⟨first, _ | ⟨second, _ | ⟨third, entries⟩⟩⟩
  · contradiction
  · cases first with
    | pattern text => exact .inl ⟨text, rfl⟩
    | source text layout => contradiction
  · cases first with
    | pattern text =>
        cases second with
        | pattern name =>
            obtain ⟨layout, hlayout, -⟩ := Option.bind_eq_some_iff.1 h
            exact .inr ⟨text, name, layout, rfl, hlayout⟩
        | source name layout => contradiction
    | source text layout => contradiction
  · cases first with
    | pattern text => contradiction
    | source text layout => contradiction

/-- **Entries that were read from a list** are not one source when they are read again. -/
theorem sourceOf?_entries_eq_none {vs : List Value} {entries : List LocaleEntry}
    (h : List.Forall₂ (sourceOf? · = some ·) vs entries) (hnone : sourceOf? (.array vs) = none) :
    sourceOf? (.array (entries.map entryValue)) = none := by
  rw [Option.eq_none_iff_forall_ne_some]
  intro entry hentry
  obtain ⟨text, rfl⟩ | ⟨text, name, layout, rfl, hlayout⟩ := entries_of_sourceOf? hentry
  · obtain - | ⟨hv, ⟨⟩⟩ := h
    rw [eq_string_of_sourceOf? hv] at hnone
    contradiction
  · obtain - | ⟨hv, - | ⟨hv', ⟨⟩⟩⟩ := h
    rw [eq_string_of_sourceOf? hv, eq_string_of_sourceOf? hv'] at hnone
    simp [sourceOf?, layout?, hlayout] at hnone

/-- Locale sources that are read from what is written for them. -/
def Readable (c : Config) : Prop :=
  ∀ d ∈ c.localeDir, localeDir? (localeDirValue d) = some d

theorem localeDir?_localeDirValue {v : Value} {d : LocaleDir} (h : localeDir? v = some d) :
    localeDir? (localeDirValue d) = some d := by
  obtain ⟨entry, hone, rfl⟩ | ⟨vs, entries, rfl, hnone, hmany, rfl⟩ := localeDir?_eq_some_iff.1 h
  · exact localeDir?_eq_some_iff.2 (.inl ⟨entry, sourceOf?_entryValue entry, rfl⟩)
  · refine localeDir?_eq_some_iff.2 (.inr ⟨_, entries, rfl, ?_, ?_, rfl⟩)
    · exact sourceOf?_entries_eq_none hmany hnone
    · rw [List.forall₂_map_left_iff, List.forall₂_same]
      exact fun entry _ => sourceOf?_entryValue entry

/-- **What is read** can be read again. -/
theorem readable_of_parse {text : List Char} {c : Config} (h : parse text = .ok c) :
    Readable c := by
  intro d hd
  obtain ⟨root, -, hconfigures⟩ := configures_of_parse h
  have hfield := hconfigures.fields .localeDir
  cases hn : (written root).lookup Field.localeDir.name with
  | none =>
      rw [hn] at hfield
      exact absurd (hfield.symm.trans hd) (by simp)
  | some n =>
      rw [hn] at hfield
      obtain ⟨v, -, hv, -⟩ := hfield
      exact localeDir?_localeDirValue (hv.trans hd)

/-! ## fields -/

namespace Field

/-- The value that is written for a field. -/
def value (c : Config) : Field → Value
  | localeDir => (c.localeDir.map localeDirValue).getD .null
  | src => .string c.src
  | extensions => stringsValue c.extensions
  | ignores => stringsValue c.ignores
  | translationFunctions => stringsValue c.translationFunctions

/-- A configuration with a field of another one. -/
def put (source : Config) (c : Config) : Field → Config
  | localeDir => { c with localeDir := source.localeDir }
  | src => { c with src := source.src }
  | extensions => { c with extensions := source.extensions }
  | ignores => { c with ignores := source.ignores }
  | translationFunctions => { c with translationFunctions := source.translationFunctions }

/-- The fields that are written. -/
def printed (c : Config) : List Field :=
  c.localeDir.toList.map (fun _ => localeDir) ++ [src, extensions, ignores, translationFunctions]

end Field

theorem toValue_eq (c : Config) :
    c.toValue = .object ((Field.printed c).map fun f => (f.name, f.value c)) := by
  obtain ⟨d, s, e, i, t⟩ := c
  cases d <;> rfl

theorem nodup_printed (c : Config) : (Field.printed c).Nodup := by
  obtain ⟨d, s, e, i, t⟩ := c
  cases d <;> simp [Field.printed]

/-- The fields that are written give the whole configuration. -/
theorem foldl_put (c : Config) : (Field.printed c).foldl (Field.put c) {} = c := by
  obtain ⟨d, s, e, i, t⟩ := c
  cases d <;> rfl

/-! ## reading what is written -/

theorem spelled_entryValue (entry : LocaleEntry) : Spelled (entryValue entry) := by
  cases entry with
  | pattern text => exact .string text
  | source text layout =>
      exact .object (List.forall_mem_cons.2 ⟨.string _, List.forall_mem_singleton.2 (.string _)⟩)

theorem spelled_localeDirValue (d : LocaleDir) : Spelled (localeDirValue d) := by
  cases d with
  | one entry => exact spelled_entryValue entry
  | many entries => exact .array (List.forall_mem_map.2 fun entry _ => spelled_entryValue entry)

theorem height_entryValue_le (entry : LocaleEntry) : (entryValue entry).height ≤ 1 := by
  cases entry <;> simp [entryValue, Value.height, heightOfNamed]

theorem height_localeDirValue_le (d : LocaleDir) : (localeDirValue d).height ≤ 2 := by
  cases d with
  | one entry => exact Nat.le_succ_of_le (height_entryValue_le entry)
  | many entries =>
      exact heightOfValues_le (List.forall_mem_map.2 fun entry _ => height_entryValue_le entry)

/-- Locale sources are read from their pretty text. -/
theorem takes_readLocaleDir {d : LocaleDir} (h : localeDir? (localeDirValue d) = some d)
    (o level : Nat) : Takes readLocaleDir o ((localeDirValue d).prettyFrom level) (some d) := by
  have hspelled := spelled_localeDirValue d
  have hheight : (localeDirValue d).height < levelLimit :=
    Nat.lt_of_le_of_lt (height_localeDirValue_le d) (by decide)
  have hvalue := takes_anyValue hspelled hheight o level
  refine takes_of_skip hvalue.begins fun s rest htook => ?_
  have hread := hvalue.takes blanks_nil htook
  -- it does not look like null
  obtain ⟨c, t, ht, hc⟩ := exists_head_of_spelled hspelled level
  have htext : (skip s).text = c :: (t ++ rest.text) := by rw [htook.text, ht, List.cons_append]
  unfold readLocaleDir
  rcases hc with rfl | rfl | rfl <;> simp [htext, hread, h, bind, Except.bind, pure, Except.pure]

theorem Takes.map {α β : Type} {read : Reader α} {o : Nat} {cs : List Char} {a : α}
    (h : Takes read o cs a) (make : α → β) :
    Takes (fun s => do
      let (a, s) ← read s
      return (make a, s)) o cs (make a) where
  begins := h.begins
  takes s rest ws hws htook := by simp [h.takes hws htook, bind, Except.bind, pure, Except.pure]

/-- The printed value of a field is taken by its reader, and puts the field. -/
theorem takes_read {source : Config} (hreadable : Readable source) {f : Field}
    (hf : f ∈ Field.printed source) (c : Config) (o level : Nat) :
    Takes (f.read c) o ((f.value source).prettyFrom level) (f.put source c) := by
  cases f with
  | localeDir =>
      obtain ⟨d, hd⟩ : ∃ d, source.localeDir = some d := by
        cases hd : source.localeDir with
        | none => simp [Field.printed, hd] at hf
        | some d => exact ⟨d, rfl⟩
      have hvalue : Field.localeDir.value source = localeDirValue d := by rw [Field.value, hd]; rfl
      rw [hvalue, Field.put, hd]
      exact (takes_readLocaleDir (hreadable d hd) o level).map fun d => { c with localeDir := d }
  | src => exact (takes_string o source.src).map fun text => { c with src := text }
  | extensions =>
      exact (takes_strings o level source.extensions).map fun texts =>
        { c with extensions := texts }
  | ignores =>
      exact (takes_strings o level source.ignores).map fun texts =>
        { c with ignores := texts }
  | translationFunctions =>
      exact (takes_strings o level source.translationFunctions).map fun texts =>
        { c with translationFunctions := texts }

/-- The text of a member for a field, whose value is taken. -/
def TakesField (source : Config) : Reading Field := fun o cs f =>
  ∀ c, TakesMember (f.read c) o cs (f.name, f.put source c)

/-- **Completeness** of the fields of an object: each one is put. -/
theorem fieldMembers_complete {source : Config} (c : Config) {set : List Field} {first : Bool}
    {o : Nat} {cs : List Char} {fs : List Field} (h : Ahead (TakesField source) first o cs fs)
    (hnodup : fs.Nodup) (hfresh : ∀ f ∈ fs, f ∉ set) {left : Nat} {s rest : Slice}
    (htook : Took s (cs ++ ['\x7d']) rest) (hleft : fs.length < left) :
    fieldMembers c set left first s = .ok (fs.foldl (Field.put source) c, rest) := by
  induction h generalizing c set left s with
  | @nil first _ _ hws =>
      obtain ⟨left, rfl⟩ := Nat.exists_eq_succ_of_ne_zero (Nat.ne_zero_of_lt hleft)
      obtain ⟨hend, hrest⟩ := nextName_end first hws htook
      simp only [fieldMembers, hend, hrest, bind, Except.bind]
      rfl
  | @cons first o lead cs cs' f fs hlead hfield _ ih =>
      obtain ⟨left, rfl⟩ := Nat.exists_eq_succ_of_ne_zero (Nat.ne_zero_of_lt hleft)
      obtain ⟨hnew, hnodup⟩ := List.nodup_cons.1 hnodup
      rw [List.append_assoc] at htook
      obtain ⟨s₂, htook, trest, -⟩ := htook.split
      obtain ⟨s₁, tlead, tmember, -⟩ := htook.split
      have hset : set.contains f = false := by simpa using hfresh f List.mem_cons_self
      generalize hput : f.put source c = c₁
      have hrest := ih c₁ hnodup (fresh_cons hnew hfresh) trest (Nat.lt_of_succ_lt_succ hleft)
      cases hput ▸ hfield c with
      | intro hws hvalue =>
          obtain ⟨s₃, s₄, hname, hcolon, hread⟩ := member_complete hws hvalue tmember
          simp only [fieldMembers, nextName_of_leads hlead tlead tmember.text, hname, hcolon, hread,
            Field.find?_name, hset, hrest, List.foldl_cons, hput, bind, Except.bind]
          rfl

/-! ## whole texts -/

/-- The members of the pretty text of a configuration. -/
theorem exists_ahead_text {c : Config} (h : Readable c) :
    ∃ cs, c.text = '\x7b' :: (cs ++ ['\x7d']) ∧
      Ahead (TakesField c) true 1 cs (Field.printed c) := by
  rw [text, Value.pretty, toValue_eq]
  refine exists_ahead_object ?_ 1
  intro f hf o c'
  exact .intro blanks_space (takes_read h hf c' o 1)

theorem config_text {c : Config} (h : Readable c) {s rest : Slice} (htook : Took s c.text rest) :
    config s = .ok (c, rest) := by
  obtain ⟨cs, htext, hahead⟩ := exists_ahead_text h
  rw [htext] at htook
  have hskip : skip s = s :=
    skip_eq blanks_nil (took_nil s) (by rw [htook.text]; simp [isBlank])
  have hleft := hahead.length_lt (fun _ _ _ hfield => (hfield {}).ne_nil) htook
  have hread := fieldMembers_complete {} hahead (nodup_printed c) (fun _ _ => List.not_mem_nil)
    htook.behind hleft
  rw [foldl_put, htook.text] at hread
  simp only [config, hskip, htook.text, List.cons_append, settle_eq_ok_iff]
  exact hread

/-- **The text of a configuration** that can be read is read as the configuration. -/
theorem parse_text_of_readable {c : Config} (h : Readable c) : parse c.text = .ok c := by
  have htook : Took ⟨0, c.text⟩ c.text ⟨byteLength c.text, []⟩ := ⟨by simp, by simp⟩
  have hend : skip ⟨byteLength c.text, []⟩ = ⟨byteLength c.text, []⟩ :=
    skip_eq blanks_nil (took_nil _) (stops_nil _)
  rw [parse, config_text h htook]
  simp [hend]

example : parse initial.text = .ok initial := by decide +kernel

/-- **What is read from a text** is read again from what is written for it. -/
theorem parse_text {text : List Char} {c : Config} (h : parse text = .ok c) :
    parse c.text = .ok c := parse_text_of_readable (readable_of_parse h)

/-- A list that is read as one source is written as an object, and the object is read as the same
source. -/
theorem parse_text_pair :
    ∃ c, parse "[[\"a.json\",\"key\"],\"é\\u0001\"]".toList = .ok c ∧
      c.toValue.members.lookup "localeDir" =
        some (.object [("pattern", .string "a.json"), ("localeKey", .string "key")]) ∧
      parse c.text = .ok c := by
  have hparse : parse "[[\"a.json\",\"key\"],\"é\\u0001\"]".toList =
      .ok { localeDir := some (.one (.source "a.json" .key)), src := "é\x01" } := by
    decide +kernel
  exact ⟨_, hparse, rfl, parse_text hparse⟩

end LocaleAudit.Config
