import LocaleAudit.Config.Parser
import LocaleAudit.Proofs.Config.Reader

/-!
# LocaleAudit.Proofs.Config.Parser

What an accepted text says of a configuration.  The text is a document of the grammar of JSON, and
`written` lists the values in it with the names of the fields that they are written for.  Reading
the value of a field gives that field and leaves the others as they are (`read_sound`,
`same_of_read`); what a run over the values makes of a configuration is `Filled`.

* `configures_of_parse` — the fields of an accepted text, one by one.
-/

namespace LocaleAudit.Config

open Text Text.Slice Json Json.Grammar

/-! ## locale sources -/

theorem mapM_eq_some_iff {α β : Type} {f : α → Option β} {as : List α} {bs : List β} :
    as.mapM f = some bs ↔ List.Forall₂ (f · = some ·) as bs := by
  induction as generalizing bs with
  | nil => simp [eq_comm]
  | cons a as ih =>
      simp only [List.mapM_cons, Option.pure_def, Option.bind_eq_bind, Option.bind_eq_some_iff,
        Option.some.injEq, List.forall₂_cons_left_iff, ih]
      constructor
      · rintro ⟨b, hb, bs', hbs, rfl⟩
        exact ⟨b, bs', hb, hbs, rfl⟩
      · rintro ⟨b, bs', hb, hbs, rfl⟩
        exact ⟨b, hb, bs', hbs, rfl⟩

/-- A value is one source, or else a list of one for each element. -/
theorem localeDir?_eq_some_iff {v : Value} {d : LocaleDir} :
    localeDir? v = some d ↔ (∃ entry, sourceOf? v = some entry ∧ d = .one entry) ∨
      ∃ vs entries, v = .array vs ∧ sourceOf? v = none ∧
        List.Forall₂ (sourceOf? · = some ·) vs entries ∧ d = .many entries := by
  cases hone : sourceOf? v with
  | some entry => simp [localeDir?, hone, eq_comm]
  | none =>
      cases v with
      | array vs => simp [localeDir?, hone, mapM_eq_some_iff, eq_comm]
      | _ => simp [localeDir?, hone]

/-! ## fields -/

namespace Field

theorem name_injective {f g : Field} (h : f.name = g.name) : f = g := by
  cases f <;> cases g <;> first | rfl | exact absurd h (by decide)

theorem find?_name (f : Field) : all.find? (·.name = f.name) = some f := by
  cases f <;> decide

/-- A field is the same in two configurations. -/
def Same (c c' : Config) : Field → Prop
  | localeDir => c'.localeDir = c.localeDir
  | src => c'.src = c.src
  | extensions => c'.extensions = c.extensions
  | ignores => c'.ignores = c.ignores
  | translationFunctions => c'.translationFunctions = c.translationFunctions

/-- A value in a text gives a field of a configuration.  The locale sources that are null are not
configured. -/
def Given (c : Config) (n : Node) : Field → Prop
  | localeDir => ∃ v, Told v n ∧ localeDir? v = c.localeDir ∧ (c.localeDir = none → v = .null)
  | src => Told (.string c.src) n
  | extensions => Told (stringsValue c.extensions) n
  | ignores => Told (stringsValue c.ignores) n
  | translationFunctions => Told (stringsValue c.translationFunctions) n

/-- A field is given by a value, or is the same as before if there is none. -/
def Becomes (c c' : Config) (f : Field) : Option Node → Prop
  | none => f.Same c c'
  | some n => f.Given c' n

theorem Same.trans {c₁ c₂ c₃ : Config} {f : Field} (h : f.Same c₁ c₂) (h' : f.Same c₂ c₃) :
    f.Same c₁ c₃ := by
  cases f <;> exact Eq.trans h' h

/-- What gives a field gives it as long as it is the same. -/
theorem Given.same {c c' : Config} {n : Node} {f : Field} (h : f.Given c n) (hsame : f.Same c c') :
    f.Given c' n := by
  cases f <;> simp only [Given, Same] at h hsame ⊢ <;> rwa [hsame]

theorem Becomes.behind {c c₁ c' : Config} {f : Field} {n? : Option Node}
    (h : f.Becomes c₁ c' n?) (hsame : f.Same c c₁) : f.Becomes c c' n? := by
  cases n? with
  | none => exact hsame.trans h
  | some n => exact h

end Field

/-! ## values of fields -/

/-- The levels that the value of a field may have. -/
def fieldLevels : Nat := levelLimit + 1

theorem readLocaleDir_sound :
    Sound readLocaleDir (Within fieldLevels) fun d n =>
      ∃ v, Told v n ∧ localeDir? v = d ∧ (d = none → v = .null) := by
  intro s rest d h
  obtain ⟨before, hbefore, tbefore⟩ := skip_sound s
  unfold readLocaleDir at h
  dsimp only at h
  split at h
  · rename_i t ht
    obtain ⟨u, hword, rfl⟩ := (made_eq_ok_iff fun _ _ => (none : Option LocaleDir)).1 h
    refine ⟨before, _, _, hbefore, ⟨.null, Nat.succ_pos levelLimit⟩,
      tbefore.trans ((took_drop_one ht).trans (wordRest_sound hword)), .null, .null, rfl, ?_⟩
    exact fun _ => rfl
  · obtain ⟨⟨v, s₁⟩, hvalue, h⟩ := bind_eq_ok_iff.1 h
    obtain ⟨before', cs, n, hbefore', hn, htook, htold⟩ := anyValue_sound levelLimit hvalue
    dsimp only at h
    split at h
    · rename_i d' hd
      simp only [pure, Except.pure, Except.ok.injEq, Prod.mk.injEq] at h
      obtain ⟨rfl, rfl⟩ := h
      rw [tbefore.offset, Nat.add_assoc, ← byteLength_append] at hn
      have hblanks : Blanks (before ++ before') :=
        fun c hc => (List.mem_append.1 hc).elim (hbefore c) (hbefore' c)
      refine ⟨_, cs, n, hblanks, hn, ?_, v, htold, hd, fun hnone => absurd hnone (by simp)⟩
      rw [List.append_assoc]
      exact tbefore.trans htook
    · simp at h

theorem Sound.mono {α β : Type} {read : Reader α} {R R' : Reading β} {P : α → β → Prop}
    (h : Sound read R P) (hR : ∀ ⦃o cs b⦄, R o cs b → R' o cs b) : Sound read R' P := by
  intro s rest a hread
  obtain ⟨before, cs, b, hbefore, hb, htook, hP⟩ := h hread
  exact ⟨before, cs, b, hbefore, hR hb, htook, hP⟩

/-- What is made of what a reader gives. -/
theorem Sound.map {α γ β : Type} {read : Reader α} {R : Reading β} {P : α → β → Prop}
    {Q : γ → β → Prop} (h : Sound read R P) (make : α → γ) (hmake : ∀ a b, P a b → Q (make a) b) :
    Sound (fun s => do
      let (a, s) ← read s
      return (make a, s)) R Q := by
  intro s rest c hread
  obtain ⟨a, ha, rfl⟩ := (made_eq_ok_iff fun a _ => make a).1 hread
  obtain ⟨before, cs, b, hbefore, hb, htook, hP⟩ := h ha
  exact ⟨before, cs, b, hbefore, hb, htook, hmake a b hP⟩

/-- **Reading the value of a field** gives that field. -/
theorem Field.read_sound (c : Config) (f : Field) :
    Sound (f.read c) (Within fieldLevels) fun c' n => f.Given c' n := by
  have hstring := string_sound.mono fun _ _ _ h => h.mono (by decide : 1 ≤ fieldLevels)
  have hstrings := strings_sound.mono fun _ _ _ h => h.mono (by decide : 2 ≤ fieldLevels)
  cases f with
  | localeDir =>
      refine readLocaleDir_sound.map (fun d => { c with localeDir := d }) ?_
      exact fun _ _ hd => hd
  | src =>
      refine hstring.map (fun text => { c with src := text }) ?_
      exact fun _ _ htext => htext
  | extensions =>
      refine hstrings.map (fun texts => { c with extensions := texts }) ?_
      exact fun _ _ htexts => htexts
  | ignores =>
      refine hstrings.map (fun texts => { c with ignores := texts }) ?_
      exact fun _ _ htexts => htexts
  | translationFunctions =>
      refine hstrings.map (fun texts => { c with translationFunctions := texts }) ?_
      exact fun _ _ htexts => htexts

/-- **The other fields** are as before. -/
theorem Field.same_of_read {c c' : Config} {f g : Field} {s rest : Slice}
    (h : f.read c s = .ok (c', rest)) (hne : g ≠ f) : g.Same c c' := by
  cases f with
  | localeDir =>
      obtain ⟨d, -, rfl⟩ := (made_eq_ok_iff fun d _ => { c with localeDir := d }).1 h
      cases g <;> first | rfl | exact absurd rfl hne
  | src =>
      obtain ⟨text, -, rfl⟩ := (made_eq_ok_iff fun text _ => { c with src := text }).1 h
      cases g <;> first | rfl | exact absurd rfl hne
  | extensions =>
      obtain ⟨texts, -, rfl⟩ := (made_eq_ok_iff fun texts _ => { c with extensions := texts }).1 h
      cases g <;> first | rfl | exact absurd rfl hne
  | ignores =>
      obtain ⟨texts, -, rfl⟩ := (made_eq_ok_iff fun texts _ => { c with ignores := texts }).1 h
      cases g <;> first | rfl | exact absurd rfl hne
  | translationFunctions =>
      obtain ⟨texts, -, rfl⟩ :=
        (made_eq_ok_iff fun texts _ => { c with translationFunctions := texts }).1 h
      cases g <;> first | rfl | exact absurd rfl hne

/-! ## runs over fields -/

/-- Values with the names of fields have changed a configuration in which some fields are set: the
names are those of other fields, each once, and each field is given by its value, or is as before
if it has none. -/
structure Filled (set : List Field) (entries : List (String × Node)) (c c' : Config) : Prop where
  names : ∃ fs : List Field, entries.map (·.1) = fs.map Field.name ∧ fs.Nodup ∧ ∀ f ∈ fs, f ∉ set
  fields : ∀ f : Field, f.Becomes c c' (entries.lookup f.name)

theorem filled_nil (set : List Field) (c : Config) : Filled set [] c c where
  names := ⟨[], rfl, .nil, by simp⟩
  fields f := by cases f <;> rfl

/-- A field that is set has no value. -/
theorem Filled.lookup_eq_none {set : List Field} {entries : List (String × Node)} {c c' : Config}
    {f : Field} (h : Filled set entries c c') (hf : f ∈ set) : entries.lookup f.name = none := by
  obtain ⟨fs, hnames, -, hfresh⟩ := h.names
  rw [List.lookup_eq_none_iff]
  intro e he
  have hmem : e.1 ∈ fs.map Field.name := hnames ▸ List.mem_map_of_mem he
  obtain ⟨g, hg, hname⟩ := List.mem_map.1 hmem
  rw [bne_iff_ne, ← hname]
  intro heq
  exact hfresh g hg (Field.name_injective heq ▸ hf)

/-- **One more value** in front of the others. -/
theorem Filled.cons {set : List Field} {f : Field} {n : Node} {entries : List (String × Node)}
    {c c₁ c' : Config} (hf : f ∉ set) (hgiven : f.Given c₁ n)
    (hsame : ∀ g, g ≠ f → g.Same c c₁) (h : Filled (f :: set) entries c₁ c') :
    Filled set ((f.name, n) :: entries) c c' where
  names := by
    obtain ⟨fs, hnames, hnodup, hfresh⟩ := h.names
    have hnew : f ∉ fs := fun hmem => hfresh f hmem List.mem_cons_self
    refine ⟨f :: fs, by rw [List.map_cons, List.map_cons, hnames],
      List.nodup_cons.2 ⟨hnew, hnodup⟩, ?_⟩
    rintro g (_ | ⟨_, hg⟩)
    · exact hf
    · exact fun hset => hfresh g hg (List.mem_cons_of_mem f hset)
  fields g := by
    by_cases hg : g = f
    · subst hg
      have hlater := h.fields g
      rw [h.lookup_eq_none List.mem_cons_self] at hlater
      rw [List.lookup_cons_self]
      exact hgiven.same hlater
    · have hname : (g.name == f.name) = false :=
        beq_eq_false_iff_ne.2 fun heq => hg (Field.name_injective heq)
      rw [List.lookup_cons, hname]
      exact (h.fields g).behind (hsame g hg)

/-- The members of an object as values with names. -/
def named (m : Json.Member Node) : String × Node := (m.key.name, m.value)

/-- **Soundness** of the fields of an object. -/
theorem fieldMembers_sound {left : Nat} {first : Bool} {c c' : Config} {set : List Field}
    {s rest : Slice} (h : fieldMembers c set left first s = .ok (c', rest)) :
    ∃ cs members, Ahead (Grammar.Member (Within fieldLevels)) first s.offset cs members ∧
      Took s (cs ++ ['\x7d']) rest ∧ Filled set (members.map named) c c' := by
  induction left generalizing first c set s with
  | zero => simp [fieldMembers] at h
  | succ left ih =>
      rw [fieldMembers, bind_eq_ok_iff] at h
      obtain ⟨next, hnext, h⟩ := h
      cases next with
      | none =>
          simp only [pure, Except.pure, Except.ok.injEq, Prod.mk.injEq] at h
          obtain ⟨rfl, rfl⟩ := h
          obtain ⟨ws, hws, htook⟩ := nextName_none hnext
          exact ⟨ws, [], .nil hws, htook, filled_nil set c⟩
      | some s₁ =>
          obtain ⟨lead, s', hlead, tlead, hquote, rfl⟩ := nextName_some hnext
          simp only [bind_eq_ok_iff] at h
          obtain ⟨⟨name, s₂⟩, hname, h⟩ := h
          dsimp only at h
          split at h
          · simp at h
          rename_i f hfind
          obtain rfl : f.name = name := by simpa using List.find?_some hfind
          split at h
          · simp at h
          rename_i hset
          simp only [bind_eq_ok_iff] at h
          obtain ⟨⟨_, s₃⟩, hcolon, ⟨c₁, s₄⟩, hread, h⟩ := h
          obtain ⟨cs, keySpan, n, span, hmember, tmember, hgiven⟩ :=
            member_sound (f.read_sound c) hquote hname hcolon hread
          obtain ⟨cs', members, hahead, trest, hfilled⟩ := ih h
          have htook := tlead.trans tmember
          rw [tlead.offset] at hmember
          rw [htook.offset] at hahead
          refine ⟨_, _, .cons hlead hmember hahead, ?_,
            hfilled.cons (by simpa using hset) hgiven fun g hne => Field.same_of_read hread hne⟩
          rw [List.append_assoc]
          exact htook.trans trest

/-- The fields behind a new one are not set when that one is. -/
theorem fresh_cons {f : Field} {fs set : List Field} (hnew : f ∉ fs)
    (hfresh : ∀ g ∈ f :: fs, g ∉ set) : ∀ g ∈ fs, g ∉ f :: set := by
  intro g hg
  rw [List.mem_cons, not_or]
  exact ⟨fun heq => hnew (heq ▸ hg), hfresh g (List.mem_cons_of_mem f hg)⟩

/-- **Soundness** of the fields of a list. -/
theorem fieldItems_sound (set : List Field) {fs : List Field} {first : Bool} {c c' : Config}
    {s rest : Slice} (h : fieldItems c fs first s = .ok (c', rest)) (hnodup : fs.Nodup)
    (hfresh : ∀ f ∈ fs, f ∉ set) :
    ∃ cs ns, Ahead (Within fieldLevels) first s.offset cs ns ∧ Took s (cs ++ [']']) rest ∧
      Filled set ((fs.map Field.name).zip ns) c c' := by
  induction fs generalizing first c s set with
  | nil =>
      obtain ⟨ws, hws, htook⟩ := skip_sound s
      unfold fieldItems at h
      dsimp only at h
      split at h
      · simp at h
      · rename_i t ht
        simp only [Except.ok.injEq, Prod.mk.injEq] at h
        obtain ⟨rfl, rfl⟩ := h
        exact ⟨ws, [], .nil hws, htook.trans (took_drop_one ht), filled_nil set c⟩
      · split at h <;> simp at h
      · simp at h
  | cons f fs ih =>
      obtain ⟨hnew, hnodup⟩ := List.nodup_cons.1 hnodup
      rw [fieldItems, bind_eq_ok_iff] at h
      obtain ⟨next, hnext, h⟩ := h
      cases next with
      | none =>
          simp only [pure, Except.pure, Except.ok.injEq, Prod.mk.injEq] at h
          obtain ⟨rfl, rfl⟩ := h
          obtain ⟨ws, hws, htook⟩ := nextItem_none hnext
          exact ⟨ws, [], .nil hws, htook, filled_nil set c⟩
      | some s₁ =>
          obtain ⟨lead, hlead, tlead⟩ := nextItem_some hnext
          simp only [bind_eq_ok_iff] at h
          obtain ⟨⟨c₁, s₂⟩, hread, h⟩ := h
          obtain ⟨before, cs, n, hbefore, hn, tread, hgiven⟩ := f.read_sound c hread
          obtain ⟨cs', ns, hahead, trest, hfilled⟩ :=
            ih (f :: set) h hnodup (fresh_cons hnew hfresh)
          have htook := tlead.trans tread
          rw [← List.append_assoc] at htook
          rw [tlead.offset, Nat.add_assoc, ← byteLength_append] at hn
          rw [htook.offset] at hahead
          refine ⟨_, n :: ns, .cons (hlead.append hbefore) hn hahead, ?_,
            hfilled.cons (hfresh f List.mem_cons_self) hgiven
              fun g hne => Field.same_of_read hread hne⟩
          rw [List.append_assoc]
          exact htook.trans trest

/-! ## whole texts -/

/-- The values in a text with the names of the fields that they are written for: the members of an
object, or the elements of a list for the fields in order. -/
def written : Node → List (String × Node)
  | .object members _ => members.map named
  | .array elements _ => (Field.all.map Field.name).zip elements
  | _ => []

/-- A value in a text gives a configuration, whose other fields have their defaults. -/
def Configures (n : Node) (c : Config) : Prop := Filled [] (written n) {} c

theorem settle_eq_ok_iff {α : Type} {place : Slice → Nat} {r : Except Trouble α} {a : α} :
    settle place r = .ok a ↔ r = .ok a := by
  unfold settle
  split <;> simp

theorem config_sound : Sound config (Within (fieldLevels + 1)) fun c n => Configures n c := by
  intro s rest c h
  obtain ⟨before, hbefore, tbefore⟩ := skip_sound s
  unfold config at h
  dsimp only at h
  split at h
  · simp at h
  · rename_i t ht
    obtain ⟨cs, members, hahead, htook, hfilled⟩ := fieldMembers_sound (settle_eq_ok_iff.1 h)
    obtain ⟨cs', hbracketed, htook'⟩ := bracketed_of_took ht hahead htook
    rw [tbefore.offset] at hbracketed
    exact ⟨before, cs', _, hbefore, within_object_iff.2 ⟨rfl, hbracketed⟩, tbefore.trans htook',
      hfilled⟩
  · rename_i t ht
    obtain ⟨cs, ns, hahead, htook, hfilled⟩ :=
      fieldItems_sound [] (settle_eq_ok_iff.1 h) (by decide) fun _ _ => List.not_mem_nil
    obtain ⟨cs', hbracketed, htook'⟩ := bracketed_of_took ht hahead htook
    rw [tbefore.offset] at hbracketed
    exact ⟨before, cs', _, hbefore, within_array_iff.2 ⟨rfl, hbracketed⟩, tbefore.trans htook',
      hfilled⟩
  · exact absurd h wrongType_ne_ok

/-- **An accepted text** is JSON, and its value gives the configuration. -/
theorem configures_of_parse {text : List Char} {c : Config} (h : parse text = .ok c) :
    ∃ root, Json.parse text = .ok root ∧ Configures root c := by
  unfold parse at h
  split at h
  · rename_i c' rest hread
    dsimp only at h
    split at h
    · rename_i hempty
      obtain rfl : c' = c := by simpa using h
      obtain ⟨before, cs, root, hbefore, ⟨hvalue, hheight⟩, htook, hconfigures⟩ :=
        config_sound hread
      obtain ⟨after, hafter, tafter⟩ := skip_sound rest
      have htext : text = [] ++ before ++ cs ++ after := by
        have hall := (htook.trans tafter).text
        rw [List.isEmpty_iff.1 hempty, List.append_nil] at hall
        exact hall
      have hdocument : Document ([] ++ before ++ cs ++ after) root := by
        rw [Nat.zero_add] at hvalue
        exact .intro (.inl rfl) hbefore hvalue hafter
          (Nat.le_trans (Nat.le_of_lt hheight) (by decide))
      exact ⟨root, htext ▸ parse_of_document hdocument, hconfigures⟩
    · contradiction
  · contradiction
  · contradiction

end LocaleAudit.Config
