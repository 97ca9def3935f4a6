import LocaleAudit.Proofs.Json.Parser
import LocaleAudit.Proofs.Json.Printer
import LocaleAudit.Proofs.Json.Value
import Mathlib.Data.List.Forall2

/-!
# LocaleAudit.Proofs.Json.RoundTrip

What is printed is read back.  A text is `Written` for a value if the grammar derives from it, where
it starts, a node whose value this is.  The parts of a printed array or object are
`listed`, so that one lemma about items goes for elements and for members.

* `written_compact`, `written_pretty` — the texts of an exact value are written for it;
* `parse_compact` — the compact text is parsed to a node with this value.
-/

namespace LocaleAudit.Json

open Text Grammar

/-! ## values that texts keep -/

/-- A value that its text keeps: the numbers are whole numbers of 64 bits, with a sign or without,
and the members of an object have distinct names. -/
inductive Value.Exact : Value → Prop
  | null : Exact .null
  | bool (b : Bool) : Exact (.bool b)
  | number {value : Int} (hlo : -2 ^ 63 ≤ value) (hhi : value < 2 ^ 64) :
      Exact (.number (.whole value))
  | string (s : String) : Exact (.string s)
  | array {vs : List Value} (helements : ∀ v ∈ vs, Exact v) : Exact (.array vs)
  | object {ms : List (String × Value)} (hnames : (ms.map (·.1)).Nodup)
      (hmembers : ∀ m ∈ ms, Exact m.2) : Exact (.object ms)

mutual

/-- How many levels of values lie below a value. -/
def Value.height : Value → Nat
  | .array vs => heightOfValues vs
  | .object ms => heightOfNamed ms
  | _ => 0

/-- How many levels the elements of an array make. -/
def heightOfValues : List Value → Nat
  | [] => 0
  | v :: vs => max (v.height + 1) (heightOfValues vs)

/-- How many levels the members of an object make. -/
def heightOfNamed : List (String × Value) → Nat
  | [] => 0
  | (_, v) :: ms => max (v.height + 1) (heightOfNamed ms)

end

/-- Values of a height at most make an array that is at most one level higher. -/
theorem heightOfValues_le {k : Nat} {vs : List Value} (h : ∀ v ∈ vs, v.height ≤ k) :
    heightOfValues vs ≤ k + 1 := by
  induction vs with
  | nil => exact Nat.zero_le _
  | cons v vs ih =>
      obtain ⟨hv, hvs⟩ := List.forall_mem_cons.1 h
      exact Nat.max_le.2 ⟨Nat.succ_le_succ hv, ih hvs⟩

/-! ## lists of items -/

/-- Texts with commas between them, each behind the same blanks. -/
def listed (before : List Char) : List (List Char) → List Char
  | [] => []
  | [text] => before ++ text
  | text :: texts => before ++ text ++ ',' :: listed before texts

section items

variable {α β : Type} {item : Reading α} {P : β → α → Prop} {text : β → List Char} {bs : List β}
  {before after : List Char}

/-- Items of which each text stands for something. -/
theorem items_listed (hbefore : Blanks before) (hafter : Blanks after) (hne : bs ≠ [])
    (hitem : ∀ b ∈ bs, ∀ o, ∃ a, item o (text b) a ∧ P b a) (o : Nat) :
    ∃ as, Items item o (listed before (bs.map text) ++ after) as ∧ List.Forall₂ P bs as := by
  induction bs generalizing o with
  | nil => contradiction
  | cons b bs ih =>
      obtain ⟨a, ha, hP⟩ := hitem b List.mem_cons_self (o + byteLength before)
      cases bs with
      | nil => exact ⟨[a], .one hbefore ha hafter, .cons hP .nil⟩
      | cons b' bs =>
          obtain ⟨as, has, hPs⟩ := ih (List.cons_ne_nil _ _)
            (fun b hb => hitem b (List.mem_cons_of_mem _ hb))
            (o + byteLength (before ++ text b ++ [] ++ [',']))
          have hcons := Items.cons hbefore ha blanks_nil has
          refine ⟨a :: as, ?_, .cons hP hPs⟩
          simpa only [listed, List.map_cons, List.append_nil, List.append_assoc,
            List.singleton_append, List.cons_append, List.nil_append] using hcons

theorem bracketed_listed (opening closing : Char) (hbefore : Blanks before)
    (hafter : Blanks after) (hitem : ∀ b ∈ bs, ∀ o, ∃ a, item o (text b) a ∧ P b a) (o : Nat) :
    ∃ as, Bracketed opening closing item o
        (opening :: (listed before (bs.map text) ++ after ++ [closing])) as ∧
      List.Forall₂ P bs as := by
  by_cases hne : bs = []
  · subst hne
    exact ⟨[], .empty hafter, .nil⟩
  · obtain ⟨as, has, hP⟩ := items_listed hbefore hafter hne hitem (o + opening.utf8Size)
    exact ⟨as, .items has, hP⟩

end items

/-! ## values of nodes -/

/-- A node that has a value, and as many levels. -/
def Carries (v : Value) (n : Node) : Prop := n.toValue = v ∧ height n = v.height

/-- A member that has a name and a value. -/
def CarriesMember (m : String × Value) (member : Member Node) : Prop :=
  member.key.name = m.1 ∧ Carries m.2 member.value

theorem elementValues_eq {vs : List Value} {ns : List Node} (h : List.Forall₂ Carries vs ns) :
    Node.elementValues ns = vs ∧ heightOfElements ns = heightOfValues vs := by
  induction h with
  | nil => exact ⟨rfl, rfl⟩
  | cons hn _ ih =>
      obtain ⟨hvalue, hheight⟩ := hn
      rw [Node.elementValues, heightOfElements, heightOfValues, hvalue, hheight, ih.1, ih.2]
      exact ⟨rfl, rfl⟩

theorem memberValues_eq {ms : List (String × Value)} {members : List (Member Node)}
    (h : List.Forall₂ CarriesMember ms members) :
    Node.memberValues members = ms ∧ heightOfMembers members = heightOfNamed ms := by
  induction h with
  | nil => exact ⟨rfl, rfl⟩
  | cons hm _ ih =>
      obtain ⟨hname, hvalue, hheight⟩ := hm
      rw [Node.memberValues, heightOfMembers, heightOfNamed, hname, hvalue, hheight, ih.1, ih.2]
      exact ⟨rfl, rfl⟩

theorem insert_of_not_mem {α : Type} {name : String} {ms : List (String × α)}
    (h : name ∉ ms.map (·.1)) (value : α) : insert name value ms = ms ++ [(name, value)] := by
  induction ms with
  | nil => rfl
  | cons m ms ih =>
      rw [List.map_cons, List.mem_cons, not_or] at h
      rw [insert, if_neg (Ne.symm h.1), ih h.2, List.cons_append]

/-- Members with distinct names are kept as they are written. -/
theorem insertAll_of_nodup {α : Type} {written : List (String × α)}
    (h : (written.map (·.1)).Nodup) : insertAll written = written := by
  have run (ms : List (String × α)) (hms : ((ms ++ written).map (·.1)).Nodup) :
      written.foldl (fun ms m => insert m.1 m.2 ms) ms = ms ++ written := by
    induction written generalizing ms with
    | nil => exact (List.append_nil ms).symm
    | cons m written ih =>
        rw [List.map_append, List.map_cons] at hms
        have hnew : m.1 ∉ ms.map (·.1) := fun hm =>
          (List.nodup_append.1 hms).2.2 _ hm _ List.mem_cons_self rfl
        rw [List.foldl_cons, insert_of_not_mem hnew, ih (List.nodup_cons.1 (List.map_cons ▸ h)).2]
        · simp
        · simpa using hms
  exact run [] h

/-! ## written texts -/

/-- A text is written for a value, wherever it starts. -/
def Written (text : List Char) (v : Value) : Prop := ∀ o, ∃ n, Grammar.Value o text n ∧ Carries v n

section written

variable {text : Value → List Char} {before after : List Char}

theorem written_array (hbefore : Blanks before) (hafter : Blanks after) {vs : List Value}
    (h : ∀ v ∈ vs, Written (text v) v) :
    Written ('[' :: (listed before (vs.map text) ++ after ++ [']'])) (.array vs) := by
  intro o
  obtain ⟨ns, hns, hcarries⟩ := bracketed_listed '[' ']' hbefore hafter h o
  obtain ⟨hvalues, hheight⟩ := elementValues_eq hcarries
  refine ⟨_, .array hns, ?_, hheight⟩
  rw [Node.toValue, hvalues]

/-- The text of a member whose value has the given text, which is put behind some blanks. -/
def memberText (text : Value → List Char) (blanks : List Char) (m : String × Value) : List Char :=
  quoted m.1 ++ ':' :: (blanks ++ text m.2)

theorem member_memberText {blanks : List Char} (hblanks : Blanks blanks) {m : String × Value}
    (h : Written (text m.2) m.2) (o : Nat) :
    ∃ member, Grammar.Member Grammar.Value o (memberText text blanks m) member ∧
      CarriesMember m member := by
  obtain ⟨n, hn, hcarries⟩ := h (o + byteLength (quoted m.1 ++ [] ++ [':'] ++ blanks))
  have hmember := Grammar.Member.intro (literal_quoted m.1) blanks_nil hblanks hn
  refine ⟨⟨⟨m.1, spanOf o (quoted m.1)⟩, n, spanOf o (memberText text blanks m)⟩, ?_, rfl,
    hcarries⟩
  simpa [memberText] using hmember

theorem written_object (hbefore : Blanks before) (hafter : Blanks after) {blanks : List Char}
    (hblanks : Blanks blanks) {ms : List (String × Value)} (hnames : (ms.map (·.1)).Nodup)
    (h : ∀ m ∈ ms, Written (text m.2) m.2) :
    Written ('\x7b' :: (listed before (ms.map (memberText text blanks)) ++ after ++ ['\x7d']))
      (.object ms) := by
  intro o
  obtain ⟨members, hmembers, hcarries⟩ := bracketed_listed '\x7b' '\x7d' hbefore hafter
    (fun m hm => member_memberText hblanks (h m hm)) o
  obtain ⟨hvalues, hheight⟩ := memberValues_eq hcarries
  refine ⟨_, .object hmembers, ?_, hheight⟩
  rw [Node.toValue, hvalues, insertAll_of_nodup hnames]

end written

theorem written_null : Written "null".toList .null := fun _ => ⟨_, .null, rfl, rfl⟩

theorem written_bool (b : Bool) : Written (if b then "true" else "false").toList (.bool b) := by
  cases b with
  | true => exact fun o => ⟨_, .true, rfl, rfl⟩
  | false => exact fun o => ⟨_, .false, rfl, rfl⟩

theorem written_number {value : Int} (hlo : -2 ^ 63 ≤ value) (hhi : value < 2 ^ 64) :
    Written (Number.whole value).text (.number (.whole value)) := by
  refine fun o => ⟨_, .number (numeral_text_whole value), ?_, rfl⟩
  rw [Node.toValue, String.toList_ofList, ofText?_whole hlo hhi]
  rfl

theorem written_string (s : String) : Written (quoted s) (.string s) :=
  fun _ => ⟨_, .string (literal_quoted s), rfl, rfl⟩

/-- A text that is written for a value with at most 512 levels below it is parsed, with any blanks
behind it. -/
theorem Written.parse_append {text after : List Char} {v : Value} (h : Written text v)
    (hafter : Blanks after) (hheight : v.height ≤ 512) :
    ∃ n, Json.parse (text ++ after) = .ok n ∧ n.toValue = v := by
  obtain ⟨n, hn, hvalue, hlevels⟩ := h 0
  have hdocument : Document ([] ++ [] ++ text ++ after) n :=
    .intro (.inl rfl) blanks_nil hn hafter (hlevels ▸ hheight)
  exact ⟨n, parse_of_document hdocument, hvalue⟩

theorem Written.parse {text : List Char} {v : Value} (h : Written text v)
    (hheight : v.height ≤ 512) : ∃ n, parse text = .ok n ∧ n.toValue = v := by
  have hparse := h.parse_append blanks_nil hheight
  rwa [List.append_nil] at hparse

/-! ## compact texts -/

theorem compactElements_eq_listed (vs : List Value) :
    compactElements vs = listed [] (vs.map Value.compact) := by
  induction vs with
  | nil => rfl
  | cons v vs ih =>
      cases vs with
      | nil => rfl
      | cons v' vs =>
          rw [compactElements, ih]
          · rfl
          · exact List.cons_ne_nil _ _

theorem compactMembers_eq_listed (ms : List (String × Value)) :
    compactMembers ms = listed [] (ms.map (memberText Value.compact [])) := by
  induction ms with
  | nil => rfl
  | cons m ms ih =>
      obtain ⟨name, v⟩ := m
      cases ms with
      | nil => rfl
      | cons m' ms =>
          rw [compactMembers, ih]
          · simp [listed, memberText]
          · exact List.cons_ne_nil _ _

/-- **The compact text of an exact value** is written for it. -/
theorem written_compact {v : Value} (h : v.Exact) : Written v.compact v := by
  induction h with
  | null => exact written_null
  | bool b => exact written_bool b
  | number hlo hhi => exact written_number hlo hhi
  | string s => exact written_string s
  | @array vs _ ih =>
      have harray := written_array blanks_nil blanks_nil ih
      rwa [List.append_nil, ← compactElements_eq_listed] at harray
  | @object ms hnames _ ih =>
      have hobject := written_object blanks_nil blanks_nil blanks_nil hnames ih
      rwa [List.append_nil, ← compactMembers_eq_listed] at hobject

/-- **What is printed is read back**: the compact text of an exact value with at most 512 levels
below it is parsed, and to a node with this value. -/
theorem parse_compact {v : Value} (h : v.Exact) (hheight : v.height ≤ 512) :
    ∃ n, parse v.compact = .ok n ∧ n.toValue = v :=
  (written_compact h).parse hheight

/-- A value with the largest and the smallest number, and with all kinds of characters. -/
def Value.extremes : Value :=
  .object [("", .array [.number (.whole (-2 ^ 63)), .number (.whole (2 ^ 64 - 1)), .object []]),
    ("\"\\", .string "\n\x01é\u2028😀")]

theorem parse_compact_extremes :
    Value.extremes.compact = ("\x7b\"\":[-9223372036854775808,18446744073709551615,\x7b\x7d]," ++
      "\"\\\"\\\\\":\"\\n\\u0001é\u2028😀\"\x7d").toList ∧
    Value.extremes.Exact ∧ Value.extremes.height ≤ 512 ∧
      ∃ n, parse Value.extremes.compact = .ok n ∧ n.toValue = Value.extremes := by
  have hexact : Value.extremes.Exact := by
    refine .object (by decide) (List.forall_mem_cons.2 ⟨.array ?_, List.forall_mem_singleton.2
      (.string _)⟩)
    refine List.forall_mem_cons.2 ⟨.number (by decide) (by decide), List.forall_mem_cons.2
      ⟨.number (by decide) (by decide), List.forall_mem_singleton.2 (.object .nil (by simp))⟩⟩
  have hheight : Value.extremes.height ≤ 512 := by decide
  exact ⟨by decide, hexact, hheight, parse_compact hexact hheight⟩

/-! ## pretty texts -/

theorem blanks_lineBreak (level : Nat) : Blanks (lineBreak level) :=
  List.forall_mem_cons.2 ⟨.inr (.inl rfl), fun _ hc => .inl (List.eq_of_mem_replicate hc)⟩

theorem prettyElements_eq_listed (level : Nat) (vs : List Value) :
    prettyElements level vs = listed (lineBreak level) (vs.map (Value.prettyFrom level)) := by
  induction vs with
  | nil => rfl
  | cons v vs ih =>
      cases vs with
      | nil => rfl
      | cons v' vs =>
          rw [prettyElements, ih]
          · simp [listed]
          · exact List.cons_ne_nil _ _

theorem prettyMembers_eq_listed (level : Nat) (ms : List (String × Value)) :
    prettyMembers level ms =
      listed (lineBreak level) (ms.map (memberText (Value.prettyFrom level) [' '])) := by
  induction ms with
  | nil => rfl
  | cons m ms ih =>
      obtain ⟨name, v⟩ := m
      cases ms with
      | nil => simp [prettyMembers, listed, memberText]
      | cons m' ms =>
          rw [prettyMembers, ih]
          · simp [listed, memberText]
          · exact List.cons_ne_nil _ _

/-- The pretty text of an exact value is written for it, at any level. -/
theorem written_prettyFrom {v : Value} (h : v.Exact) (level : Nat) :
    Written (v.prettyFrom level) v := by
  induction h generalizing level with
  | null => exact written_null
  | bool b => exact written_bool b
  | number hlo hhi => exact written_number hlo hhi
  | string s => exact written_string s
  | @array vs _ ih =>
      cases vs with
      | nil => exact fun _ => ⟨_, .array (.empty blanks_nil), rfl, rfl⟩
      | cons v vs =>
          have harray := written_array (blanks_lineBreak (level + 1)) (blanks_lineBreak level)
            fun v hv => ih v hv (level + 1)
          rwa [← prettyElements_eq_listed] at harray
  | @object ms hnames _ ih =>
      cases ms with
      | nil => exact fun _ => ⟨_, .object (.empty blanks_nil), rfl, rfl⟩
      | cons m ms =>
          have hspace : Blanks [' '] := List.forall_mem_singleton.2 (.inl rfl)
          have hobject := written_object (blanks_lineBreak (level + 1)) (blanks_lineBreak level)
            hspace hnames fun m hm => ih m hm (level + 1)
          rwa [← prettyMembers_eq_listed] at hobject

/-- **The pretty text of an exact value** is written for it. -/
theorem written_pretty {v : Value} (h : v.Exact) : Written v.pretty v := written_prettyFrom h 0

end LocaleAudit.Json
