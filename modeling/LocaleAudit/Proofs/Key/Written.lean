import LocaleAudit.Key.Link
import LocaleAudit.Proofs.Text.LineIndex
import LocaleAudit.Proofs.Text.Slice

/-!
# LocaleAudit.Proofs.Key.Written

Links that are written into a message.  A key that is not in parentheses ends where the text goes on
with something that cannot belong to a key; periods in between belong to the sentence.

* `link?_text`, `links_append` — the link that is read at the start of a text;
* `links_written` — the keys of a message are those that are written into it, and whatever the
  message is, what is read is a key.
-/

namespace LocaleAudit.Key

open Text

/-! ## keys -/

/-- The period at the end of a sentence. -/
abbrev isPeriod (c : Char) : Bool := c == '.'

/-- A key to which a message can link. -/
structure IsKey (key : List Char) : Prop where
  ne_nil : key ≠ []
  noPeriod : key.getLast? ≠ some '.'
  chars : ∀ c ∈ key, isLinkChar c = true

theorem stops_at (rest : List Char) : Stops isLinkChar ('@' :: rest) :=
  stops_cons.2 (by decide +kernel)

theorem stops_closing (rest : List Char) : Stops isLinkChar (')' :: rest) :=
  stops_cons.2 (by decide +kernel)

theorem trimEnd_append_periods {key : List Char} (h : key.getLast? ≠ some '.') (n : Nat) :
    trimEnd isPeriod (key ++ List.replicate n '.') = key := by
  have hstops : Stops isPeriod key.reverse := by
    intro c hc
    rw [List.head?_reverse] at hc
    have hne : c ≠ '.' := by
      rintro rfl
      exact h hc
    simpa using hne
  rw [trimEnd, List.reverse_append, List.reverse_replicate,
    hstops.dropWhile_append (by simp), List.reverse_reverse]

/-! ## links -/

/-- A link that is written into a message, and the text behind it. -/
structure WrittenLink where
  /-- The letters of the modifier, if there is one. -/
  modifier : List Char
  /-- Whether the key is in parentheses. -/
  bracketed : Bool
  /-- The key. -/
  key : List Char
  /-- The text between the link and the next one. -/
  behind : List Char
  letters : ∀ c ∈ modifier, c.isAlpha = true
  isKey : IsKey key
  plain : '@' ∉ behind
  apart : bracketed = false → Stops isLinkChar (behind.dropWhile isPeriod)

namespace WrittenLink

variable (l : WrittenLink)

/-- The modifier, as it is written. -/
def modifierText : List Char := if l.modifier = [] then [] else '.' :: l.modifier

/-- The key, as it is written. -/
def keyText : List Char := if l.bracketed then '(' :: l.key ++ [')'] else l.key

/-- The link and the text behind it. -/
def text : List Char := '@' :: l.modifierText ++ ':' :: l.keyText ++ l.behind

theorem behindModifier_append (rest : List Char) :
    behindModifier (l.modifierText ++ ':' :: rest) = ':' :: rest := by
  have hcolon : Stops Char.isAlpha (':' :: rest) := stops_cons.2 rfl
  cases hmodifier : l.modifier with
  | nil => simp [modifierText, hmodifier, behindModifier]
  | cons c cs =>
      have hletters : ∀ d ∈ c :: cs, d.isAlpha = true := hmodifier ▸ l.letters
      have hdrop : ((c :: cs) ++ ':' :: rest).dropWhile Char.isAlpha = ':' :: rest :=
        hcolon.dropWhile_append hletters
      have hfirst : c.isAlpha = true := hletters c List.mem_cons_self
      simpa [modifierText, hmodifier, behindModifier, hfirst] using hdrop

end WrittenLink

/-- The longest key at the start of a text is the one behind which no key goes on. -/
theorem keyRun?_append {run rest : List Char} (hne : run ≠ [])
    (hrun : ∀ c ∈ run, isLinkChar c = true) (hrest : Stops isLinkChar rest) :
    keyRun? (run ++ rest) = some (run, rest) := by
  simp [keyRun?, hrest.takeWhile_append hrun, hrest.dropWhile_append hrun, hne]

/-- A key in parentheses. -/
theorem linkKey?_bracketed {key : List Char} (h : IsKey key) (rest : List Char) :
    linkKey? ('(' :: key ++ ')' :: rest) = some (key, rest) := by
  simp [linkKey?, keyRun?_append h.ne_nil h.chars (stops_closing rest)]

/-- A key that is not in parentheses. -/
theorem linkKey?_append {run rest : List Char} (hne : run ≠ [])
    (hrun : ∀ c ∈ run, isLinkChar c = true) (hrest : Stops isLinkChar rest) :
    linkKey? (run ++ rest) = some (run, rest) := by
  obtain ⟨c, cs, rfl⟩ := List.exists_cons_of_ne_nil hne
  have hopening : '(' ≠ c := by
    rintro rfl
    exact absurd (hrun '(' List.mem_cons_self) (by decide +kernel)
  rw [← keyRun?_append hne hrun hrest, List.cons_append, linkKey?]
  simpa using hopening.symm

/-- **The link at the start of a text** is read with the periods behind its key, and the text goes
on behind them. -/
theorem WrittenLink.link?_text (l : WrittenLink) {rest : List Char}
    (hrest : Stops isLinkChar rest) :
    ∃ n back, '@' ∉ back ∧
      link? (l.text ++ rest) = some (l.key ++ List.replicate n '.', back ++ rest) := by
  have hlink : link? (l.text ++ rest) = linkKey? (l.keyText ++ (l.behind ++ rest)) := by
    have hcolon := l.behindModifier_append (l.keyText ++ (l.behind ++ rest))
    simp [WrittenLink.text, link?, hcolon]
  rw [hlink]
  cases hbracketed : l.bracketed with
  | true =>
      refine ⟨0, l.behind, l.plain, ?_⟩
      simpa [keyText, hbracketed] using linkKey?_bracketed l.isKey (l.behind ++ rest)
  | false =>
      -- all periods belong to the key at first, and are taken off its end
      have hperiods : l.behind.takeWhile isPeriod =
          List.replicate (l.behind.takeWhile isPeriod).length '.' :=
        List.eq_replicate_of_mem fun c hc =>
          eq_of_beq (List.all_eq_true.1 (List.all_takeWhile (l := l.behind)) c hc)
      refine ⟨(l.behind.takeWhile isPeriod).length, l.behind.dropWhile isPeriod,
        fun hmem => l.plain ((List.dropWhile_sublist _).subset hmem), ?_⟩
      have hback : Stops isLinkChar (l.behind.dropWhile isPeriod ++ rest) := by
        cases hdrop : l.behind.dropWhile isPeriod with
        | nil => exact hrest
        | cons c cs => exact (hdrop ▸ l.apart hbracketed).append (List.cons_ne_nil c cs) rest
      have hrun : ∀ c ∈ l.key ++ l.behind.takeWhile isPeriod, isLinkChar c = true := by
        rw [hperiods]
        intro c hc
        rcases List.mem_append.1 hc with hc | hc
        · exact l.isKey.chars c hc
        · rw [List.eq_of_mem_replicate hc]
          decide +kernel
      have hread := linkKey?_append (by simp [l.isKey.ne_nil]) hrun hback
      rw [← hperiods, ← hread, keyText, if_neg (by simp [hbracketed]), List.append_assoc,
        ← List.append_assoc (l.behind.takeWhile isPeriod), List.takeWhile_append_dropWhile]

/-! ## messages -/

theorem links_of_link?_eq_none {c : Char} {cs : List Char} (h : link? (c :: cs) = none) :
    links (c :: cs) = links cs := by
  rw [links]
  split
  · simp_all
  · rfl

/-- There is no link in front of the first at sign. -/
theorem links_append_of_not_mem {front : List Char} (h : '@' ∉ front) (rest : List Char) :
    links (front ++ rest) = links rest := by
  induction front with
  | nil => rfl
  | cons c cs ih =>
      obtain ⟨hc, hcs⟩ : '@' ≠ c ∧ '@' ∉ cs := by simpa using h
      have hnone : link? (c :: (cs ++ rest)) = none := by
        rw [link?]
        rintro _ heq
        exact absurd (List.cons.inj heq).1.symm hc
      rw [List.cons_append, links_of_link?_eq_none hnone, ih hcs]

theorem links_of_link? {message run rest : List Char} (h : link? message = some (run, rest)) :
    links message = if (trimEnd isPeriod run).isEmpty then links rest
      else trimEnd isPeriod run :: links rest := by
  cases message with
  | nil => simp [link?] at h
  | cons c cs =>
      rw [links]
      split
      · rename_i run' rest' hlink
        obtain ⟨rfl, rfl⟩ := Prod.mk.inj (Option.some.inj (hlink.symm.trans h))
        rfl
      · simp_all

/-- **A link is read back**, and reading goes on behind it. -/
theorem WrittenLink.links_append (l : WrittenLink) {rest : List Char}
    (hrest : Stops isLinkChar rest) : links (l.text ++ rest) = l.key :: links rest := by
  obtain ⟨n, back, hplain, hlink⟩ := l.link?_text hrest
  rw [links_of_link? hlink, trimEnd_append_periods l.isKey.noPeriod,
    if_neg (by simpa using l.isKey.ne_nil), links_append_of_not_mem hplain]

/-- A message with links. -/
structure WrittenMessage where
  /-- The text in front of the first link. -/
  front : List Char
  /-- The links, each with the text behind it. -/
  links : List WrittenLink
  plain : '@' ∉ front

/-- The message, as it is written. -/
def WrittenMessage.text (m : WrittenMessage) : List Char :=
  m.front ++ m.links.flatMap WrittenLink.text

theorem stops_flatMap_text (ls : List WrittenLink) :
    Stops isLinkChar (ls.flatMap WrittenLink.text) := by
  cases ls with
  | nil => exact stops_nil _
  | cons l ls => exact stops_at _

theorem links_flatMap_text (ls : List WrittenLink) :
    links (ls.flatMap WrittenLink.text) = ls.map WrittenLink.key := by
  induction ls with
  | nil => simp [links]
  | cons l ls ih =>
      rw [List.flatMap_cons, l.links_append (stops_flatMap_text ls), ih, List.map_cons]

theorem all_of_keyRun? {text run rest : List Char} (h : keyRun? text = some (run, rest)) :
    ∀ c ∈ run, isLinkChar c = true := by
  simp only [keyRun?] at h
  split at h
  · contradiction
  · obtain ⟨rfl, -⟩ := Prod.mk.inj (Option.some.inj h)
    exact List.all_eq_true.1 List.all_takeWhile

theorem all_of_linkKey? {text run rest : List Char} (h : linkKey? text = some (run, rest)) :
    ∀ c ∈ run, isLinkChar c = true := by
  unfold linkKey? at h
  split at h
  · split at h
    · rename_i hrun
      obtain ⟨rfl, -⟩ := Prod.mk.inj (Option.some.inj h)
      exact all_of_keyRun? hrun
    · contradiction
  · exact all_of_keyRun? h

theorem all_of_link? {text run rest : List Char} (h : link? text = some (run, rest)) :
    ∀ c ∈ run, isLinkChar c = true := by
  unfold link? at h
  split at h
  · split at h
    · exact all_of_linkKey? h
    · contradiction
  · contradiction

/-- What is read from a message is a key. -/
theorem isKey_of_mem_links {message key : List Char} (h : key ∈ links message) : IsKey key := by
  induction message using links.induct with
  | case1 => simp [links] at h
  | case2 c cs run rest hlink _ hempty ih =>
      rw [links_of_link? hlink, if_pos hempty] at h
      exact ih h
  | case3 c cs run rest hlink _ hne ih =>
      rw [links_of_link? hlink, if_neg hne] at h
      rcases List.mem_cons.1 h with rfl | h
      · obtain ⟨n, hrun, hlast⟩ := trimEnd_spec '.' run
        refine ⟨by simpa using hne, hlast, fun c hc => all_of_link? hlink c ?_⟩
        rw [hrun]
        exact List.mem_append_left _ hc
      · exact ih h
  | case4 c cs hnone ih =>
      rw [links_of_link?_eq_none hnone] at h
      exact ih h

/-- **The links that are written into a message are read back**, in order and as often as they are
written; and whatever a message is, what is read from it are keys. -/
theorem links_written :
    (∀ m : WrittenMessage, links m.text = m.links.map WrittenLink.key) ∧
      ∀ message, ∀ key ∈ links message, IsKey key := by
  refine ⟨fun m => ?_, fun message key => isKey_of_mem_links⟩
  rw [WrittenMessage.text, links_append_of_not_mem m.plain, links_flatMap_text]

/-- A message with a link at the end of a sentence, and one in parentheses. -/
def titledMessage : WrittenMessage where
  front := "See ".toList
  links := [
    { modifier := "lower".toList, bracketed := false, key := "docs.title".toList
      behind := "... ".toList, letters := by simp
      isKey := ⟨by simp, by simp, List.all_eq_true.1 (by decide +kernel)⟩
      plain := by simp, apart := fun _ => stops_cons.2 (by decide +kernel) },
    { modifier := [], bracketed := true, key := "app".toList
      behind := ".name".toList, letters := by simp
      isKey := ⟨by simp, by simp, List.all_eq_true.1 (by decide +kernel)⟩
      plain := by simp, apart := by simp }]
  plain := by simp

theorem links_written_titled :
    titledMessage.text = "See @.lower:docs.title... @:(app).name".toList ∧
      links titledMessage.text = ["docs.title".toList, "app".toList] ∧ IsKey "app".toList := by
  have hlinks : links titledMessage.text = ["docs.title".toList, "app".toList] :=
    links_written.1 titledMessage
  have hmem : "app".toList ∈ links titledMessage.text := by
    rw [hlinks]
    exact List.mem_cons_of_mem _ List.mem_cons_self
  exact ⟨by decide, hlinks, links_written.2 _ _ hmem⟩

end LocaleAudit.Key
