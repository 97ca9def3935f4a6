import LocaleAudit.Proofs.Config.Parser

/-!
# LocaleAudit.Proofs.Config.Sources

The locale sources that are written as a list.  A source may be written as a list itself, of its
pattern and its layout, and this is tried first: a list of two strings of which the second names a
layout is one source.  Every other list of strings and objects has a source for each element.

* `localeSources_of_list` — the sources of a list in an accepted text.
-/

namespace LocaleAudit.Config

open Json Json.Grammar LocaleAudit.Locale

/-! ## elements -/

/-- The layout that a value stands for: its name, or an object with its name and null. -/
inductive NamesLayout : Node → Layout → Prop
  | name {name : String} {span : Span} {layout : Layout} (h : layoutOfName? name = some layout) :
      NamesLayout (.string name span) layout
  | member {name : String} {span nameSpan nullSpan memberSpan : Span} {layout : Layout}
      (h : layoutOfName? name = some layout) :
      NamesLayout (.object [⟨⟨name, nameSpan⟩, .null nullSpan, memberSpan⟩] span) layout

/-- An element of a list, and the source that it stands for: a string is the pattern of files that
are named by their locales, and an object has a pattern, and a layout unless it is that one. -/
inductive Denotes : Node → Source → Prop
  | pattern {text : String} {span : Span} : Denotes (.string text span) ⟨text, .file⟩
  | source {members : List (Json.Member Node)} {span patternSpan : Span} {pattern : String}
      {layout : Layout}
      (hpattern : (members.map named).lookup "pattern" = some (.string pattern patternSpan))
      (hlayout : ∀ n ∈ (members.map named).lookup "localeKey", NamesLayout n layout)
      (hdefault : (members.map named).lookup "localeKey" = none → layout = .file) :
      Denotes (.object members span) ⟨pattern, layout⟩

/-- A string, or an object with a pattern. -/
def IsEntry : Node → Prop
  | .string _ _ => True
  | .object members _ => (members.map named).lookup "pattern" ≠ none
  | _ => False

/-- The source that a list of a pattern and the name of a layout stands for. -/
def pair? : List Node → Option Source
  | [.string pattern _, .string name _] => (layoutOfName? name).map (⟨pattern, ·⟩)
  | _ => none

/-! ## entries -/

/-- Members that are told have values for the same names. -/
theorem lookup_told {ms : List (String × Value)} {members : List (Json.Member Node)}
    (h : List.Forall₂ (Named Told) ms members) (name : String) :
    (ms.lookup name = none ∧ (members.map named).lookup name = none) ∨
      ∃ v n, ms.lookup name = some v ∧ (members.map named).lookup name = some n ∧ Told v n := by
  induction h with
  | nil => exact .inl ⟨rfl, rfl⟩
  | @cons m member ms members hm _ ih =>
      obtain ⟨hvalue⟩ := hm
      rename_i name' keySpan span v n
      rw [List.map_cons, named]
      by_cases hname : name = name'
      · subst hname
        rw [List.lookup_cons_self, List.lookup_cons_self]
        exact .inr ⟨v, n, rfl, rfl, hvalue⟩
      · have hbeq : (name == name') = false := beq_eq_false_iff_ne.2 hname
        rw [List.lookup_cons, List.lookup_cons, hbeq]
        exact ih

/-- A value that an object has once is the one with its name. -/
theorem lookup_of_single? {name : String} {missing : Option Value} {ms : List (String × Value)}
    {v : Value} (h : single? name missing ms = some v) :
    (ms.lookup name = none ∧ missing = some v) ∨ ms.lookup name = some v := by
  have hlookup : ms.lookup name = ((ms.filter (·.1 = name)).head?).map (·.2) := by
    clear h
    induction ms with
    | nil => rfl
    | cons m ms ih =>
        obtain ⟨name', v'⟩ := m
        by_cases hname : name = name'
        · simp [hname]
        · have hbeq : (name == name') = false := beq_eq_false_iff_ne.2 hname
          rw [List.lookup_cons, hbeq, List.filter_cons_of_neg (by simpa using Ne.symm hname)]
          exact ih
  unfold single? at h
  rw [hlookup]
  split at h
  · rename_i hnone
    exact .inl ⟨by rw [hnone]; rfl, h⟩
  · rename_i hone
    rw [hone]
    exact .inr h
  · contradiction

/-- A value that an object has once is told from the node with its name. -/
theorem told_of_single? {name : String} {missing : Option Value} {ms : List (String × Value)}
    {members : List (Json.Member Node)} {v : Value} (htold : List.Forall₂ (Named Told) ms members)
    (h : single? name missing ms = some v) :
    ((members.map named).lookup name = none ∧ missing = some v) ∨
      ∃ n, (members.map named).lookup name = some n ∧ Told v n := by
  rcases lookup_told htold name with ⟨hnone, hnode⟩ | ⟨v', n, hvalue, hnode, hv⟩
  · rcases lookup_of_single? h with ⟨-, hmissing⟩ | hsome
    · exact .inl ⟨hnode, hmissing⟩
    · exact absurd (hnone.symm.trans hsome) (by simp)
  · rcases lookup_of_single? h with ⟨hnone, -⟩ | hsome
    · exact absurd (hnone.symm.trans hvalue) (by simp)
    · obtain rfl := Option.some.inj (hvalue.symm.trans hsome)
      exact .inr ⟨n, hnode, hv⟩

theorem namesLayout_of_layout? {v : Value} {n : Node} {layout : Layout} (htold : Told v n)
    (h : layout? v = some layout) : NamesLayout n layout := by
  unfold layout? at h
  split at h
  · cases htold with
    | string => exact .name h
  · cases htold with
    | object hmembers =>
        obtain - | ⟨⟨hnull⟩, ⟨⟩⟩ := hmembers
        cases hnull with
        | null => exact .member h
  · contradiction

/-- **An element** stands for the source of its entry. -/
theorem denotes_of_sourceOf? {v : Value} {n : Node} {entry : LocaleEntry} (htold : Told v n)
    (hentry : IsEntry n) (h : sourceOf? v = some entry) : Denotes n entry.toSource := by
  cases htold with
  | string =>
      obtain rfl : .pattern _ = entry := Option.some.inj h
      exact .pattern
  | @object ms members span hmembers =>
      obtain ⟨-, -, h⟩ := Option.bind_eq_some_iff.1 h
      obtain ⟨v, hpattern, h⟩ := Option.bind_eq_some_iff.1 h
      obtain ⟨-, hmissing⟩ | ⟨n, hnode, htold⟩ := told_of_single? hmembers hpattern
      · contradiction
      cases htold with
      | string =>
          obtain ⟨key, hkey, h⟩ := Option.bind_eq_some_iff.1 h
          obtain ⟨layout, hlayout, h⟩ := Option.bind_eq_some_iff.1 h
          obtain rfl : .source _ layout = entry := Option.some.inj h
          obtain ⟨hnone, hmissing⟩ | ⟨n', hnode', htold'⟩ := told_of_single? hmembers hkey
          · obtain rfl := Option.some.inj hmissing
            obtain rfl : .file = layout := Option.some.inj hlayout
            exact .source hnode (by simp [hnone]) fun _ => rfl
          · refine .source hnode ?_ fun hnone => absurd (hnone.symm.trans hnode') (by simp)
            intro n'' hn''
            obtain rfl := Option.some.inj (hnode'.symm.trans hn'')
            exact namesLayout_of_layout? htold' hlayout
      | null => contradiction
      | bool => contradiction
      | number => contradiction
      | array => contradiction
      | object => contradiction
  | null => exact hentry.elim
  | bool => exact hentry.elim
  | number => exact hentry.elim
  | array => exact hentry.elim

/-! ## lists -/

/-- The entries of a list stand for its elements, one each. -/
theorem denotes_of_entries {vs : List Value} {ns : List Node} {entries : List LocaleEntry}
    (htold : List.Forall₂ Told vs ns) (hentries : ∀ n ∈ ns, IsEntry n)
    (h : List.Forall₂ (sourceOf? · = some ·) vs entries) :
    List.Forall₂ Denotes ns (entries.map LocaleEntry.toSource) := by
  induction htold generalizing entries with
  | nil =>
      cases h
      exact .nil
  | cons hv _ ih =>
      obtain ⟨hentry, hentries⟩ := List.forall_mem_cons.1 hentries
      cases h with
      | cons hsource h => exact .cons (denotes_of_sourceOf? hv hentry hsource) (ih hentries h)

/-- An object with nothing but null is no entry. -/
theorem not_isEntry_member {name : String} {span nameSpan nullSpan memberSpan : Span}
    {layout : Layout} (h : layoutOfName? name = some layout) :
    ¬ IsEntry (.object [⟨⟨name, nameSpan⟩, .null nullSpan, memberSpan⟩] span) := by
  have hname : ("pattern" == name) = false := by
    rw [beq_eq_false_iff_ne]
    rintro rfl
    contradiction
  rw [IsEntry, List.map_cons, named, List.lookup_cons, hname]
  exact fun hne => hne rfl

/-- A list that is one source is a string, or a pair of a pattern and a layout. -/
theorem pair?_of_sourceOf? {vs : List Value} {ns : List Node} {entry : LocaleEntry}
    (htold : List.Forall₂ Told vs ns) (hentries : ∀ n ∈ ns, IsEntry n)
    (h : sourceOf? (.array vs) = some entry) :
    (pair? ns = none ∧ List.Forall₂ Denotes ns [entry.toSource]) ∨
      pair? ns = some entry.toSource := by
  unfold sourceOf? at h
  split at h
  · contradiction
  · contradiction
  · rename_i text heq
    obtain rfl := Value.array.inj heq
    obtain rfl := Option.some.inj h
    obtain - | ⟨⟨⟩, ⟨⟩⟩ := htold
    exact .inl ⟨rfl, .cons .pattern .nil⟩
  · rename_i text v heq
    obtain rfl := Value.array.inj heq
    simp only [Option.bind_eq_bind, Option.bind_eq_some_iff, Option.some.injEq] at h
    obtain ⟨layout, hlayout, rfl⟩ := h
    obtain - | ⟨⟨⟩, - | ⟨hv, ⟨⟩⟩⟩ := htold
    have hentry := hentries _ (List.mem_cons_of_mem _ List.mem_cons_self)
    cases namesLayout_of_layout? hv hlayout with
    | name hname => exact .inr (by rw [pair?, hname]; rfl)
    | member hname => exact absurd hentry (not_isEntry_member hname)
  · contradiction

/-- A pair of a pattern and the name of a layout is one source. -/
theorem sourceOf?_of_pair? {vs : List Value} {ns : List Node} {source : Source}
    (htold : List.Forall₂ Told vs ns) (h : pair? ns = some source) :
    ∃ entry, sourceOf? (.array vs) = some entry := by
  unfold pair? at h
  split at h
  · rename_i pattern _ name _
    obtain - | ⟨⟨⟩, - | ⟨⟨⟩, ⟨⟩⟩⟩ := htold
    obtain ⟨layout, hlayout, -⟩ := Option.map_eq_some_iff.1 h
    exact ⟨.source pattern layout, by simp [sourceOf?, layout?, hlayout]⟩
  · contradiction

/-- **The sources of a list** in an accepted text: one for each element in order, unless the list
is a pair of a pattern and the name of a layout, which is one source. -/
theorem localeSources_of_list {text : List Char} {c : Config} (h : parse text = .ok c) :
    ∃ root, Json.parse text = .ok root ∧ ∀ elements span,
      (written root).lookup "localeDir" = some (.array elements span) →
      (∀ n ∈ elements, IsEntry n) →
      (pair? elements = none → List.Forall₂ Denotes elements c.localeSources) ∧
        ∀ source, pair? elements = some source → c.localeSources = [source] := by
  obtain ⟨root, hroot, hconfigures⟩ := configures_of_parse h
  refine ⟨root, hroot, ?_⟩
  intro elements span hlist hentries
  have hfield := hconfigures.fields .localeDir
  rw [show Field.localeDir.name = "localeDir" from rfl, hlist] at hfield
  obtain ⟨v, htold, hdir, hnull⟩ := hfield
  cases htold with
  | @array vs _ _ htold =>
      obtain ⟨d, hd⟩ := Option.ne_none_iff_exists'.1 fun hnone => Value.noConfusion (hnull hnone)
      rw [hd] at hdir
      obtain ⟨entry, hone, rfl⟩ | ⟨vs', entries, heq, hnone, hmany, rfl⟩ :=
        localeDir?_eq_some_iff.1 hdir
      · have hsources : c.localeSources = [entry.toSource] := by
          rw [localeSources, hd]
          rfl
        rw [hsources]
        rcases pair?_of_sourceOf? htold hentries hone with ⟨hpair, hdenotes⟩ | hpair
        · exact ⟨fun _ => hdenotes, fun source hsource => by simp [hpair] at hsource⟩
        · refine ⟨fun hno => by simp [hno] at hpair, fun source hsource => ?_⟩
          rw [Option.some.inj (hpair.symm.trans hsource)]
      · obtain rfl := Value.array.inj heq
        have hsources : c.localeSources = entries.map LocaleEntry.toSource := by
          rw [localeSources, hd]
          rfl
        rw [hsources]
        refine ⟨fun _ => denotes_of_entries htold hentries hmany, fun source hsource => ?_⟩
        obtain ⟨entry, hsome⟩ := sourceOf?_of_pair? htold hsource
        exact absurd (hnone.symm.trans hsome) (by simp)

/-- A list of both kinds of elements. -/
def mixedText : List Char :=
  ("\x7b\"localeDir\":[\"a.json\",\x7b\"localeKey\":\"key\",\"pattern\":\"b.json\"\x7d]" ++
    "\x7d").toList

theorem localeSources_of_list_mixed :
    ∃ c root elements span, parse mixedText = .ok c ∧ Json.parse mixedText = .ok root ∧
      (written root).lookup "localeDir" = some (.array elements span) ∧
      List.Forall₂ Denotes elements c.localeSources ∧
      c.localeSources = [⟨"a.json", .file⟩, ⟨"b.json", .key⟩] := by
  have hparse : parse mixedText =
      .ok { localeDir := some (.many [.pattern "a.json", .source "b.json" .key]) } := by
    decide +kernel
  have hjson : Json.parse mixedText = .ok (.object [⟨⟨"localeDir", ⟨1, 12⟩⟩,
      .array [.string "a.json" ⟨14, 22⟩,
        .object [⟨⟨"localeKey", ⟨24, 35⟩⟩, .string "key" ⟨36, 41⟩, ⟨24, 41⟩⟩,
          ⟨⟨"pattern", ⟨42, 51⟩⟩, .string "b.json" ⟨52, 60⟩, ⟨42, 60⟩⟩] ⟨23, 61⟩] ⟨13, 62⟩,
      ⟨1, 62⟩⟩] ⟨0, 63⟩) := by rfl
  obtain ⟨root, hroot, hlist⟩ := localeSources_of_list hparse
  obtain rfl := Except.ok.inj (hroot.symm.trans hjson)
  refine ⟨_, _, _, _, hparse, hjson, rfl, (hlist _ _ rfl ?_).1 rfl, rfl⟩
  exact List.forall_mem_cons.2 ⟨trivial, List.forall_mem_singleton.2 (Option.some_ne_none _)⟩

/-- A list of a pattern and the name of a layout is one source, though each of its elements stands
for a source. -/
theorem localeSources_of_pair :
    ∃ text c root elements span, parse text = .ok c ∧ Json.parse text = .ok root ∧
      (written root).lookup "localeDir" = some (.array elements span) ∧
      List.Forall₂ Denotes elements [⟨"a.json", .file⟩, ⟨"file", .file⟩] ∧
      c.localeSources = [⟨"a.json", .file⟩] := by
  have hparse : parse "\x7b\"localeDir\":[\"a.json\",\"file\"]\x7d".toList =
      .ok { localeDir := some (.one (.source "a.json" .file)) } := by
    decide +kernel
  have hjson : Json.parse "\x7b\"localeDir\":[\"a.json\",\"file\"]\x7d".toList =
      .ok (.object [⟨⟨"localeDir", ⟨1, 12⟩⟩,
        .array [.string "a.json" ⟨14, 22⟩, .string "file" ⟨23, 29⟩] ⟨13, 30⟩,
        ⟨1, 30⟩⟩] ⟨0, 31⟩) := by rfl
  exact ⟨_, _, _, _, _, hparse, hjson, rfl, .cons .pattern (.cons .pattern .nil), rfl⟩

end LocaleAudit.Config
