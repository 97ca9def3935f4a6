import LocaleAudit.Proofs.Config.Reader
import LocaleAudit.Proofs.Json.RoundTrip

/-!
# LocaleAudit.Proofs.Config.Pretty

The readers of a configuration take pretty texts.  `Takes` says that a reader takes a text behind
any blanks, wherever it stands, so it is a reading of the items that are `Ahead` in a list or an
object, and a printed list or object is read if the readers of its parts take their texts.

* `items_complete`, `members_complete` — the parts of a list and of an object;
* `takes_anyValue` — the pretty text of a value that is made of strings.
-/

namespace LocaleAudit.Config

open Text hiding isBlank
open Text.Slice Json Json.Grammar

/-- A reader takes a text behind blanks and gives something.  The text begins like an item. -/
structure Takes {α : Type} (read : Reader α) (o : Nat) (cs : List Char) (a : α) : Prop where
  begins : cs ≠ [] ∧ Stops endsItem cs
  takes : ∀ ⦃s rest : Slice⦄ ⦃ws : List Char⦄, Blanks ws → Took s (ws ++ cs) rest →
    read s = .ok (a, rest)

/-- What begins like an item is neither blank nor a closing bracket. -/
theorem ne_of_stops_endsItem {c : Char} {t : List Char} (h : Stops endsItem (c :: t)) :
    isBlank c = false ∧ c ≠ ']' ∧ c ≠ '\x7d' := by
  rw [stops_cons] at h
  simp only [endsItem, Bool.or_eq_false_iff, beq_eq_false_iff_ne] at h
  exact ⟨h.1.1.1, h.1.2, h.2⟩

theorem skip_eq {s rest : Slice} {ws : List Char} (hws : Blanks ws) (htook : Took s ws rest)
    (hstops : Stops isBlank rest.text) : skip s = rest := skipBlanks_complete htook hws hstops

/-- A reader that skips blanks takes what it takes behind them. -/
theorem takes_of_skip {α : Type} {read : Reader α} {o : Nat} {cs : List Char} {a : α}
    (hbegins : cs ≠ [] ∧ Stops endsItem cs)
    (h : ∀ ⦃s rest : Slice⦄, Took (skip s) cs rest → read s = .ok (a, rest)) :
    Takes read o cs a where
  begins := hbegins
  takes s rest ws hws htook := by
    obtain ⟨s', tws, tcs, -⟩ := htook.split
    have hstops : Stops isBlank s'.text := by
      rw [tcs.text]
      exact stops_isBlank_append hbegins rest.text
    have hskip : skip s = s' := skip_eq hws tws hstops
    exact h (hskip ▸ tcs)

theorem begins_cons {c : Char} (h : endsItem c = false) (cs : List Char) :
    c :: cs ≠ [] ∧ Stops endsItem (c :: cs) := ⟨List.cons_ne_nil c cs, stops_cons.2 h⟩

/-! ## what is ahead -/

section ahead

variable {α : Type} {R : Reading α}

/-- Items behind a comma. -/
theorem Ahead.comma {o : Nat} {cs : List Char} {a : α} {as : List α}
    (h : Ahead R true (o + byteLength [',']) cs (a :: as)) :
    Ahead R false o (',' :: cs) (a :: as) := by
  cases h with
  | @cons _ _ lead cs rest _ _ hlead hitem hrest =>
      cases hlead with
      | first hws =>
          rw [Nat.add_assoc, ← byteLength_append] at hitem hrest
          have hcons := Ahead.cons (.next blanks_nil hws) hitem hrest
          simpa using hcons

/-- The texts of items with commas between them. -/
theorem ahead_listed {text : α → List Char} {before after : List Char} (hbefore : Blanks before)
    (hafter : Blanks after) {as : List α} (hitem : ∀ a ∈ as, ∀ o, R o (text a) a) (o : Nat) :
    Ahead R true o (listed before (as.map text) ++ after) as := by
  induction as generalizing o with
  | nil => exact .nil hafter
  | cons a as ih =>
      obtain ⟨ha, has⟩ := List.forall_mem_cons.1 hitem
      cases as with
      | nil => exact .cons (.first hbefore) (ha _) (.nil hafter)
      | cons a' as =>
          have hrest := ih has (o + byteLength (before ++ text a) + byteLength [','])
          have hcons := Ahead.cons (.first hbefore) (ha _) hrest.comma
          simpa [listed] using hcons

theorem Ahead.length_le (hne : ∀ ⦃o cs a⦄, R o cs a → cs ≠ []) {first : Bool} {o : Nat}
    {cs : List Char} {as : List α} (h : Ahead R first o cs as) : as.length ≤ cs.length := by
  induction h with
  | nil => exact Nat.zero_le _
  | cons hlead hitem _ ih =>
      have hpos := List.length_pos_of_ne_nil (hne hitem)
      simp only [List.length_append, List.length_cons]
      omega

/-- Between brackets there are fewer items than characters, so that a count of these is enough. -/
theorem Ahead.length_lt (hne : ∀ ⦃o cs a⦄, R o cs a → cs ≠ []) {first : Bool} {o : Nat}
    {cs : List Char} {as : List α} (h : Ahead R first o cs as) {opening closing : Char}
    {s rest : Slice} (htook : Took s (opening :: (cs ++ [closing])) rest) :
    as.length < s.text.length := by
  have hlength := h.length_le hne
  rw [htook.text, List.cons_append, List.length_cons, List.length_append, List.length_append]
  omega

end ahead

/-! ## lists -/

theorem nextItem_end (first : Bool) {s rest : Slice} {ws : List Char} (hws : Blanks ws)
    (htook : Took s (ws ++ [']']) rest) : nextItem first s = .ok none ∧ (skip s).drop 1 = rest := by
  obtain ⟨s', tws, tclose, -⟩ := htook.split
  have hskip : skip s = s' := skip_eq hws tws (by rw [tclose.text]; simp [isBlank])
  refine ⟨?_, hskip ▸ tclose.drop_one⟩
  simp [nextItem, hskip, tclose.text]

theorem nextItem_of_leads {first : Bool} {s s' : Slice} {lead : List Char}
    (hlead : Leads first lead) (htook : Took s lead s')
    (hs' : s'.text ≠ [] ∧ Stops endsItem s'.text) : nextItem first s = .ok (some s') := by
  obtain ⟨c, t, ht⟩ := List.exists_cons_of_ne_nil hs'.1
  rw [ht] at hs'
  obtain ⟨hblank, hclose, -⟩ := ne_of_stops_endsItem hs'.2
  have hstops : Stops isBlank s'.text := by rw [ht, stops_cons]; exact hblank
  cases hlead with
  | first hws => simp [nextItem, skip_eq hws htook hstops, ht]
  | next hws hws' =>
      obtain ⟨s₁, tws, tcomma, -⟩ := htook.split
      have hskip : skip s = s₁ := skip_eq hws tws (by rw [tcomma.text]; simp [isBlank])
      simp [nextItem, hskip, tcomma.text, skip_eq hws' tcomma.behind hstops, ht, hclose]

/-- **Completeness** of lists: the items are read if the reader takes their texts. -/
theorem items_complete {α : Type} {read : Reader α} {first : Bool} {o : Nat} {cs : List Char}
    {as : List α} (h : Ahead (Takes read) first o cs as) {left : Nat} {s rest : Slice}
    (htook : Took s (cs ++ [']']) rest) (hleft : as.length < left) :
    items read left first s = .ok (as, rest) := by
  induction h generalizing left s with
  | @nil first _ _ hws =>
      obtain ⟨left, rfl⟩ := Nat.exists_eq_succ_of_ne_zero (Nat.ne_zero_of_lt hleft)
      obtain ⟨hend, hrest⟩ := nextItem_end first hws htook
      simp only [items, hend, hrest, bind, Except.bind]
      rfl
  | @cons first o lead cs cs' a as hlead hitem _ ih =>
      obtain ⟨left, rfl⟩ := Nat.exists_eq_succ_of_ne_zero (Nat.ne_zero_of_lt hleft)
      rw [List.append_assoc] at htook
      obtain ⟨s₂, htook, trest, -⟩ := htook.split
      obtain ⟨s₁, tlead, titem, -⟩ := htook.split
      have hbegins : s₁.text ≠ [] ∧ Stops endsItem s₁.text := by
        rw [titem.text]
        exact ⟨List.append_ne_nil_of_left_ne_nil hitem.begins.1 _,
          hitem.begins.2.append hitem.begins.1 _⟩
      simp only [items, nextItem_of_leads hlead tlead hbegins, hitem.takes blanks_nil titem,
        ih trest (Nat.lt_of_succ_lt_succ hleft), bind, Except.bind]
      rfl

/-- A list is read behind its opening bracket. -/
theorem items_of_bracket {α : Type} {read : Reader α} {o : Nat} {cs : List Char} {as : List α}
    (h : Ahead (Takes read) true o cs as) {s rest : Slice}
    (htook : Took s ('[' :: (cs ++ [']'])) rest) :
    items read s.text.length true (s.drop 1) = .ok (as, rest) :=
  items_complete h htook.behind (h.length_lt (fun _ _ _ hitem => hitem.begins.1) htook)

/-- The pretty text of a list, whose elements are read from their pretty texts. -/
theorem exists_ahead_array {α : Type} {R : Reading α} {value : α → Value} {level : Nat}
    {as : List α} (h : ∀ a ∈ as, ∀ o, R o ((value a).prettyFrom (level + 1)) a) (o : Nat) :
    ∃ cs, (Value.array (as.map value)).prettyFrom level = '[' :: (cs ++ [']']) ∧
      Ahead R true o cs as := by
  cases as with
  | nil => exact ⟨[], rfl, .nil blanks_nil⟩
  | cons a as =>
      refine ⟨_, ?_, ahead_listed (blanks_lineBreak (level + 1)) (blanks_lineBreak level) h o⟩
      rw [List.map_cons, Value.prettyFrom, prettyElements_eq_listed, ← List.map_cons, List.map_map]
      · rfl
      · exact List.cons_ne_nil _ _

/-! ## strings -/

/-- A printed string is taken by the reader of strings. -/
theorem takes_string (o : Nat) (text : String) : Takes string o (quoted text) text := by
  refine takes_of_skip (begins_cons rfl _) fun s rest htook => ?_
  obtain ⟨t, ht⟩ : ∃ t, (skip s).text = '"' :: t := ⟨_, htook.text⟩
  simp [string, ht, stringRest_quoted htook]

/-- A printed list of strings is taken by the reader of such lists. -/
theorem takes_strings (o level : Nat) (texts : List String) :
    Takes strings o ((stringsValue texts).prettyFrom level) texts := by
  obtain ⟨cs, hpretty, hahead⟩ : ∃ cs,
      (stringsValue texts).prettyFrom level = '[' :: (cs ++ [']']) ∧
        Ahead (Takes string) true o cs texts :=
    exists_ahead_array (fun text _ o => takes_string o text) o
  rw [hpretty]
  refine takes_of_skip (begins_cons rfl _) fun s rest htook => ?_
  obtain ⟨t, ht⟩ : ∃ t, (skip s).text = '[' :: t := ⟨_, htook.text⟩
  have hitems := items_of_bracket hahead htook
  rw [ht] at hitems
  simp only [strings, ht]
  exact hitems

/-! ## objects -/

/-- The text of a member whose value is taken. -/
inductive TakesMember {α : Type} (read : Reader α) : Reading (String × α)
  | intro {o : Nat} {name : String} {ws cs : List Char} {a : α} (hws : Blanks ws)
      (hvalue : Takes read o cs a) : TakesMember read o (quoted name ++ ':' :: (ws ++ cs)) (name, a)

theorem nextName_end (first : Bool) {s rest : Slice} {ws : List Char} (hws : Blanks ws)
    (htook : Took s (ws ++ ['\x7d']) rest) :
    nextName first s = .ok none ∧ (skip s).drop 1 = rest := by
  obtain ⟨s', tws, tclose, -⟩ := htook.split
  have hskip : skip s = s' := skip_eq hws tws (by rw [tclose.text]; simp [isBlank])
  refine ⟨?_, hskip ▸ tclose.drop_one⟩
  simp [nextName, hskip, tclose.text]

theorem nextName_of_leads {first : Bool} {s s' : Slice} {lead t : List Char}
    (hlead : Leads first lead) (htook : Took s lead s') (ht : s'.text = '"' :: t) :
    nextName first s = .ok (some (s'.drop 1)) := by
  have hstops : Stops isBlank s'.text := by rw [ht, stops_cons]; rfl
  cases hlead with
  | first hws => simp [nextName, skip_eq hws htook hstops, ht]
  | next hws hws' =>
      obtain ⟨s₁, tws, tcomma, -⟩ := htook.split
      have hskip : skip s = s₁ := skip_eq hws tws (by rw [tcomma.text]; simp [isBlank])
      simp [nextName, hskip, tcomma.text, skip_eq hws' tcomma.behind hstops, ht]

/-- The name, the colon and the value of a member are read. -/
theorem member_complete {α : Type} {read : Reader α} {o : Nat} {name : String} {ws cs : List Char}
    {a : α} (hws : Blanks ws) (hvalue : Takes read o cs a) {s rest : Slice}
    (htook : Took s (quoted name ++ ':' :: (ws ++ cs)) rest) :
    ∃ s₁ s₂, stringRest (s.drop 1) = .ok (name, s₁) ∧ colon s₁ = .ok ((), s₂) ∧
      read s₂ = .ok (a, rest) := by
  obtain ⟨s₁, tname, tcolon, -⟩ := htook.split
  have hskip : skip s₁ = s₁ :=
    skip_eq blanks_nil (took_nil s₁) (by rw [tcolon.text]; simp [isBlank])
  refine ⟨s₁, s₁.drop 1, stringRest_quoted tname, ?_, hvalue.takes hws tcolon.behind⟩
  simp [colon, hskip, tcolon.text]

/-- **Completeness** of objects: the members are read if the reader takes their values. -/
theorem members_complete {α : Type} {read : Reader α} {first : Bool} {o : Nat} {cs : List Char}
    {ms : List (String × α)} (h : Ahead (TakesMember read) first o cs ms) {left : Nat}
    {s rest : Slice} (htook : Took s (cs ++ ['\x7d']) rest) (hleft : ms.length < left) :
    members read left first s = .ok (ms, rest) := by
  induction h generalizing left s with
  | @nil first _ _ hws =>
      obtain ⟨left, rfl⟩ := Nat.exists_eq_succ_of_ne_zero (Nat.ne_zero_of_lt hleft)
      obtain ⟨hend, hrest⟩ := nextName_end first hws htook
      simp only [members, hend, hrest, bind, Except.bind]
      rfl
  | @cons first o lead cs cs' m ms hlead hmember _ ih =>
      obtain ⟨left, rfl⟩ := Nat.exists_eq_succ_of_ne_zero (Nat.ne_zero_of_lt hleft)
      rw [List.append_assoc] at htook
      obtain ⟨s₂, htook, trest, -⟩ := htook.split
      obtain ⟨s₁, tlead, tmember, -⟩ := htook.split
      have hrest := ih trest (Nat.lt_of_succ_lt_succ hleft)
      cases hmember with
      | intro hws hvalue =>
          obtain ⟨s₃, s₄, hname, hcolon, hread⟩ := member_complete hws hvalue tmember
          simp only [members, nextName_of_leads hlead tlead tmember.text, hname, hcolon, hread,
            hrest, bind, Except.bind]
          rfl

theorem TakesMember.ne_nil {α : Type} {read : Reader α} {o : Nat} {cs : List Char}
    {m : String × α} (h : TakesMember read o cs m) : cs ≠ [] := by
  cases h
  simp [quoted]

/-- An object is read behind its opening bracket. -/
theorem members_of_bracket {α : Type} {read : Reader α} {o : Nat} {cs : List Char}
    {ms : List (String × α)} (h : Ahead (TakesMember read) true o cs ms) {s rest : Slice}
    (htook : Took s ('\x7b' :: (cs ++ ['\x7d'])) rest) :
    members read s.text.length true (s.drop 1) = .ok (ms, rest) :=
  members_complete h htook.behind (h.length_lt (fun _ _ _ hmember => hmember.ne_nil) htook)

/-- The pretty text of an object, whose members are read from theirs. -/
theorem exists_ahead_object {α : Type} {R : Reading α} {member : α → String × Value} {level : Nat}
    {as : List α}
    (h : ∀ a ∈ as, ∀ o, R o (memberText (Value.prettyFrom (level + 1)) [' '] (member a)) a)
    (o : Nat) :
    ∃ cs, (Value.object (as.map member)).prettyFrom level = '\x7b' :: (cs ++ ['\x7d']) ∧
      Ahead R true o cs as := by
  cases as with
  | nil => exact ⟨[], rfl, .nil blanks_nil⟩
  | cons a as =>
      refine ⟨_, ?_, ahead_listed (blanks_lineBreak (level + 1)) (blanks_lineBreak level) h o⟩
      rw [List.map_cons, Value.prettyFrom, prettyMembers_eq_listed, ← List.map_cons, List.map_map]
      · rfl
      · exact List.cons_ne_nil _ _

theorem blanks_space : Blanks [' '] := List.forall_mem_singleton.2 (.inl rfl)

/-! ## values -/

/-- A value that is made of strings. -/
inductive Spelled : Value → Prop
  | string (text : String) : Spelled (.string text)
  | array {vs : List Value} (helements : ∀ v ∈ vs, Spelled v) : Spelled (.array vs)
  | object {ms : List (String × Value)} (hmembers : ∀ m ∈ ms, Spelled m.2) : Spelled (.object ms)

theorem height_lt_array {vs : List Value} {v : Value} (h : v ∈ vs) :
    v.height < (Value.array vs).height := by
  rw [Value.height]
  induction h with
  | head vs => exact Nat.lt_of_lt_of_le (Nat.lt_succ_self _) (Nat.le_max_left _ _)
  | tail v' _ ih => exact Nat.lt_of_lt_of_le ih (Nat.le_max_right _ _)

theorem height_lt_object {ms : List (String × Value)} {m : String × Value} (h : m ∈ ms) :
    m.2.height < (Value.object ms).height := by
  rw [Value.height]
  induction h with
  | head ms => exact Nat.lt_of_lt_of_le (Nat.lt_succ_self _) (Nat.le_max_left _ _)
  | tail m' _ ih => exact Nat.lt_of_lt_of_le ih (Nat.le_max_right _ _)

/-- The pretty text of a value that is made of strings starts with a quote or a bracket. -/
theorem exists_head_of_spelled {v : Value} (h : Spelled v) (level : Nat) :
    ∃ c t, v.prettyFrom level = c :: t ∧ (c = '"' ∨ c = '[' ∨ c = '\x7b') := by
  cases h with
  | string text => exact ⟨_, _, rfl, .inl rfl⟩
  | @array vs _ => cases vs <;> exact ⟨_, _, rfl, .inr (.inl rfl)⟩
  | @object ms _ => cases ms <;> exact ⟨_, _, rfl, .inr (.inr rfl)⟩

/-- **The pretty text of a value** that is made of strings is taken by the reader of values, if it
has the levels for it. -/
theorem takes_anyValue {v : Value} (h : Spelled v) {levels : Nat} (hlevels : v.height < levels)
    (o level : Nat) : Takes (anyValue levels) o (v.prettyFrom level) v := by
  induction h generalizing levels o level with
  | string text =>
      refine takes_of_skip (begins_cons rfl _) fun s rest htook => ?_
      obtain ⟨t, ht⟩ : ∃ t, (skip s).text = '"' :: t := ⟨_, htook.text⟩
      unfold anyValue
      simp [ht, stringRest_quoted htook, bind, Except.bind, pure, Except.pure]
  | @array vs _ ih =>
      obtain ⟨levels, rfl⟩ := Nat.exists_eq_succ_of_ne_zero (Nat.ne_zero_of_lt hlevels)
      have helements : ∀ v ∈ vs, ∀ o,
          Takes (anyValue levels) o ((id v).prettyFrom (level + 1)) v := fun v hv o =>
        ih v hv (Nat.lt_of_lt_of_le (height_lt_array hv) (Nat.le_of_lt_succ hlevels)) o (level + 1)
      obtain ⟨cs, hpretty, hahead⟩ := exists_ahead_array helements o
      rw [List.map_id] at hpretty
      rw [hpretty]
      refine takes_of_skip (begins_cons rfl _) fun s rest htook => ?_
      obtain ⟨t, ht⟩ : ∃ t, (skip s).text = '[' :: t := ⟨_, htook.text⟩
      have hitems := items_of_bracket hahead htook
      rw [ht] at hitems
      unfold anyValue
      simp only [ht, hitems, bind, Except.bind]
      rfl
  | @object ms _ ih =>
      obtain ⟨levels, rfl⟩ := Nat.exists_eq_succ_of_ne_zero (Nat.ne_zero_of_lt hlevels)
      have hmembers : ∀ m ∈ ms, ∀ o, TakesMember (anyValue levels) o
          (memberText (Value.prettyFrom (level + 1)) [' '] (id m)) m := fun m hm o =>
        .intro blanks_space (ih m hm
          (Nat.lt_of_lt_of_le (height_lt_object hm) (Nat.le_of_lt_succ hlevels)) o (level + 1))
      obtain ⟨cs, hpretty, hahead⟩ := exists_ahead_object hmembers o
      rw [List.map_id] at hpretty
      rw [hpretty]
      refine takes_of_skip (begins_cons rfl _) fun s rest htook => ?_
      obtain ⟨t, ht⟩ : ∃ t, (skip s).text = '\x7b' :: t := ⟨_, htook.text⟩
      have hmembers := members_of_bracket hahead htook
      rw [ht] at hmembers
      unfold anyValue
      simp only [ht, hmembers, bind, Except.bind]
      rfl

end LocaleAudit.Config
