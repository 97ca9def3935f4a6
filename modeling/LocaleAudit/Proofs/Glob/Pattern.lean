import LocaleAudit.Glob.Pattern
import LocaleAudit.Proofs.Path

/-!
# LocaleAudit.Proofs.Glob.Pattern

Texts that are patterns.  A reader that is not in brackets does not remember what it has read but for
the slash in front of it, so a pattern stays one behind another and without its needless pieces.

* `isOk_readFrom_append` — two texts with one start;
* `reads_filter`, `reads_append` — patterns without needless pieces, and behind each other;
* `readsAs_steps`, `isOk_parse_resolve` — patterns behind a root.
-/

namespace LocaleAudit.Glob

open Text LocaleAudit.Path Place

/-! ## single characters -/

/-- The reader is in brackets. -/
def State.bracketed : State → Bool
  | .between _ => false
  | .opened _ | .inside _ _ _ => true

/-- Where a reader is behind a character at the given place; a star counts as such only in
brackets. -/
def State.next (s : State) (place : Nat) (c : Char) : State :=
  match s with
  | .between _ =>
    if c = '?' then .between false else if c = '[' then .opened place else .between (c = '/')
  | .opened start => if c = '!' then .inside start true [] else .inside start false [c]
  | .inside start negated read =>
    if c = ']' && !read.isEmpty then .between false else .inside start negated (read ++ [c])

/-- Nothing is left, or a slash comes next. -/
def Breaks (cs : List Char) : Prop := cs = [] ∨ ∃ ds, cs = '/' :: ds

theorem Breaks.head?_append {as xs : List Char} (h : Breaks xs) (has : as.head? ≠ some '*') :
    (as ++ xs).head? ≠ some '*' := by
  cases as with
  | nil => rcases h with rfl | ⟨ds, rfl⟩ <;> simp
  | cons a as => exact has

theorem Breaks.append {as xs ys : List Char} (h : Breaks (as ++ xs)) (hys : Breaks ys) :
    Breaks (as ++ ys) := by
  cases as with
  | nil => exact hys
  | cons a as =>
      rcases h with h | ⟨ds, h⟩
      · contradiction
      · exact .inr ⟨as ++ ys, by rw [List.cons_append, (List.cons.inj h).1]⟩

theorem isOk_map {ε α β : Type} {f : α → β} {e : Except ε α} : (e.map f).isOk = e.isOk := by
  cases e <;> rfl

section readers

variable {s : State} {fresh : Bool} {place : Nat} {cs : List Char} {c : Char}

theorem isOk_readFrom_nil : (readFrom s place []).isOk = !s.bracketed := by
  rw [readFrom.eq_def]
  cases s <;> rfl

/-- One character that is not a star, or is in brackets. -/
theorem isOk_readFrom_cons (h : c ≠ '*' ∨ s.bracketed = true) :
    (readFrom s place (c :: cs)).isOk = (readFrom (s.next place c) (place + 1) cs).isOk := by
  rw [readFrom.eq_def]
  dsimp only
  cases s with
  | opened start => rfl
  | inside start negated read =>
      rw [State.next]
      dsimp only
      split
      · exact isOk_map
      · rfl
  | between fresh =>
      have hstar : c ≠ '*' := by simpa [State.bracketed] using h
      rw [State.next]
      dsimp only
      split
      · exact isOk_map
      · split
        · rfl
        · exact isOk_map

/-- A star that stands alone. -/
theorem isOk_readFrom_star (h : cs.head? ≠ some '*') :
    (readFrom (.between fresh) place ('*' :: cs)).isOk =
      (readFrom (.between false) (place + 1) cs).isOk := by
  rw [readFrom.eq_def]
  simp only [Char.reduceEq, if_false, if_true]
  split
  · simp at h
  · simp at h
  · exact isOk_map

/-- Two stars have to be alone between slashes. -/
theorem isOk_readFrom_stars :
    (readFrom (.between fresh) place ('*' :: '*' :: cs)).isOk = true ↔
      fresh = true ∧ Breaks cs ∧ (readFrom (.between false) (place + 2) cs).isOk = true := by
  rw [readFrom.eq_def]
  simp only [Char.reduceEq, if_false, if_true]
  split
  · -- a third star
    rename_i heq
    obtain rfl := (List.cons.inj heq).2
    simp [Except.isOk, Except.toBool, Breaks]
  · rename_i heq
    obtain rfl := (List.cons.inj heq).2
    cases fresh with
    | false => simp [Except.isOk, Except.toBool]
    | true =>
      split
      · simp at *
      · split
        · exact iff_of_true rfl ⟨rfl, .inl rfl, isOk_readFrom_nil⟩
        · rename_i rest _
          rw [isOk_map, isOk_readFrom_cons (.inl (by decide))]
          exact ⟨fun h => ⟨rfl, .inr ⟨rest, rfl⟩, h⟩, fun h => h.2.2⟩
        · rename_i hnil hslash
          refine iff_of_false (by simp [Except.isOk, Except.toBool]) fun h => ?_
          rcases h.2.1 with rfl | ⟨ds, rfl⟩
          · exact hnil rfl
          · exact hslash ds rfl
  · rename_i h h'
    exact absurd rfl (h' _)

end readers

/-! ## readers of one kind -/

/-- Readers that differ at most in where they are and in what they have read in brackets. -/
inductive State.Alike : State → State → Prop
  | between (fresh : Bool) : Alike (.between fresh) (.between fresh)
  | opened (a b : Nat) : Alike (.opened a) (.opened b)
  | inside {a b : Nat} {m n : Bool} {read read' : List Char}
      (h : read.isEmpty = read'.isEmpty) : Alike (.inside a m read) (.inside b n read')

theorem State.Alike.bracketed {s t : State} (h : s.Alike t) : s.bracketed = t.bracketed := by
  cases h <;> rfl

theorem isEmpty_concat {α : Type} (as : List α) (a : α) : (as ++ [a]).isEmpty = false := by
  cases as <;> rfl

theorem State.Alike.next {s t : State} (h : s.Alike t) (place place' : Nat) (c : Char) :
    (s.next place c).Alike (t.next place' c) := by
  cases h with
  | between fresh =>
      rw [State.next, State.next]
      split
      · exact .between _
      · split
        · exact .opened _ _
        · exact .between _
  | opened a b =>
      rw [State.next, State.next]
      split <;> exact .inside rfl
  | @inside a b m n read read' h =>
      rw [State.next, State.next, h]
      split
      · exact .between _
      · exact .inside (by rw [isEmpty_concat, isEmpty_concat])

/-- **Two texts that start alike** are both read if what is left of them is. -/
theorem isOk_readFrom_append {xs ys : List Char} (hxs : Breaks xs) (hys : Breaks ys)
    (h : ∀ s t : State, s.Alike t → ∀ m n,
      (readFrom s m xs).isOk = true → (readFrom t n ys).isOk = true)
    (as : List Char) {s t : State} (hst : s.Alike t) (m n : Nat)
    (hok : (readFrom s m (as ++ xs)).isOk = true) : (readFrom t n (as ++ ys)).isOk = true := by
  induction hlength : as.length using Nat.strongRecOn generalizing as s t m n with
  | ind length ih =>
    cases as with
    | nil => exact h s t hst m n hok
    | cons c as =>
      rw [List.length_cons] at hlength
      by_cases hc : c ≠ '*' ∨ s.bracketed = true
      · rw [List.cons_append, isOk_readFrom_cons hc] at hok
        rw [List.cons_append, isOk_readFrom_cons (hst.bracketed ▸ hc)]
        exact ih as.length (by omega) as (hst.next m n c) _ _ hok rfl
      · obtain ⟨rfl, hbracketed⟩ : c = '*' ∧ s.bracketed = false := by simpa using hc
        cases hst with
        | opened => contradiction
        | inside => contradiction
        | between fresh =>
          by_cases hhead : as.head? = some '*'
          · obtain ⟨bs, rfl⟩ := List.head?_eq_some_iff.1 hhead
            rw [List.cons_append, List.cons_append, isOk_readFrom_stars] at hok ⊢
            obtain ⟨hfresh, hbreaks, hok⟩ := hok
            have hshorter : bs.length < length := by
              rw [List.length_cons] at hlength
              omega
            exact ⟨hfresh, hbreaks.append hys, ih _ hshorter bs (.between false) _ _ hok rfl⟩
          · rw [List.cons_append, isOk_readFrom_star (hxs.head?_append hhead)] at hok
            rw [List.cons_append, isOk_readFrom_star (hys.head?_append hhead)]
            exact ih as.length (by omega) as (.between false) _ _ hok rfl

/-- Whether a text is read depends neither on where it is nor on what has been read before. -/
theorem isOk_readFrom_of_alike {s t : State} (hst : s.Alike t) {m : Nat} (n : Nat)
    {cs : List Char} (h : (readFrom s m cs).isOk = true) : (readFrom t n cs).isOk = true := by
  rw [← List.append_nil cs] at h ⊢
  refine isOk_readFrom_append (.inl rfl) (.inl rfl) (fun s t hst m n h => ?_) cs hst m n h
  rw [isOk_readFrom_nil] at h ⊢
  rwa [← hst.bracketed]

/-! ## patterns with slashes -/

/-- The text is a pattern. -/
def Reads (text : List Char) : Prop := (readFrom (.between true) 0 text).isOk = true

theorem reads_slash_cons {text : List Char} : Reads ('/' :: text) ↔ Reads text := by
  rw [Reads, isOk_readFrom_cons (.inl (by decide))]
  exact ⟨isOk_readFrom_of_alike (.between true) 0, isOk_readFrom_of_alike (.between true) 1⟩

/-- Two patterns with a slash between them are a pattern. -/
theorem Reads.append_slash {as bs : List Char} (has : Reads as) (hbs : Reads bs) :
    Reads (as ++ '/' :: bs) := by
  rw [← List.append_nil as] at has
  refine isOk_readFrom_append (.inl rfl) (.inr ⟨bs, rfl⟩) (fun s t hst m n h => ?_) as
    (.between true) 0 0 has
  rw [isOk_readFrom_nil] at h
  cases hst with
  | between fresh =>
      rw [isOk_readFrom_cons (.inl (by decide))]
      exact isOk_readFrom_of_alike (.between true) _ hbs
  | opened => contradiction
  | inside => contradiction

/-- A piece of a path that means nothing. -/
def Needless (piece : List Char) : Prop := piece = [] ∨ piece = ['.']

instance (piece : List Char) : Decidable (Needless piece) := inferInstanceAs (Decidable (_ ∨ _))

/-- Behind a slash and a needless piece, a reader is as ready for another slash as it was before. -/
theorem exists_behind_needless {piece : List Char} (hpiece : Needless piece) {s t : State}
    (hst : s.Alike t) (m : Nat) :
    ∃ (u : State) (k : Nat),
      (∀ xs, (readFrom s m ('/' :: (piece ++ xs))).isOk = (readFrom u k xs).isOk) ∧
        u.bracketed = s.bracketed ∧ ∀ i j, (u.next i '/').Alike (t.next j '/') := by
  have hslash (cs : List Char) : (readFrom s m ('/' :: cs)).isOk =
      (readFrom (s.next m '/') (m + 1) cs).isOk := isOk_readFrom_cons (.inl (by decide))
  rcases hpiece with rfl | rfl
  · refine ⟨s.next m '/', m + 1, hslash, ?_, fun i j => ?_⟩
    · cases hst <;> simp [State.next, State.bracketed]
    · cases hst with
      | between => exact .between true
      | opened => exact .inside rfl
      | inside => exact .inside (by rw [isEmpty_concat, isEmpty_concat])
  · refine ⟨(s.next m '/').next (m + 1) '.', m + 2, fun xs => ?_, ?_, fun i j => ?_⟩
    · rw [List.singleton_append, hslash, isOk_readFrom_cons (.inl (by decide))]
    · cases hst <;> simp [State.next, State.bracketed]
    · cases hst with
      | between => exact .between true
      | opened => exact .inside rfl
      | inside => exact .inside (by rw [isEmpty_concat, isEmpty_concat])

/-- A needless piece behind a slash may be left out of a pattern. -/
theorem reads_of_needless {as piece xs : List Char} (hpiece : Needless piece) (hxs : Breaks xs)
    (h : Reads (as ++ '/' :: (piece ++ xs))) : Reads (as ++ xs) := by
  refine isOk_readFrom_append (.inr ⟨_, rfl⟩) hxs (fun s t hst m n h => ?_) as
    (.between true) 0 0 h
  obtain ⟨u, k, hread, hbracketed, halike⟩ := exists_behind_needless hpiece hst m
  rw [hread] at h
  rcases hxs with rfl | ⟨ds, rfl⟩
  · rw [isOk_readFrom_nil] at h ⊢
    rwa [← hst.bracketed, ← hbracketed]
  · rw [isOk_readFrom_cons (.inl (by decide))] at h ⊢
    exact isOk_readFrom_of_alike (halike k n) _ h

/-! ## patterns and their pieces -/

/-- The text of pieces, each behind a slash. -/
def behindSlashes (pieces : List (List Char)) : List Char := pieces.flatMap ('/' :: ·)

theorem behindSlashes_cons (piece : List Char) (pieces : List (List Char)) :
    behindSlashes (piece :: pieces) = '/' :: (piece ++ behindSlashes pieces) := rfl

theorem breaks_behindSlashes (pieces : List (List Char)) : Breaks (behindSlashes pieces) := by
  cases pieces with
  | nil => exact .inl rfl
  | cons piece pieces => exact .inr ⟨piece ++ behindSlashes pieces, rfl⟩

theorem behindSlashes_pieces (text : List Char) :
    behindSlashes (Text.pieces '/' text) = '/' :: text := by
  induction text with
  | nil => rfl
  | cons c text ih =>
      rw [Text.pieces]
      split
      · rename_i hc
        rw [behindSlashes_cons, ih, hc, List.nil_append]
      · cases hpieces : Text.pieces '/' text with
        | nil => exact absurd hpieces (Text.pieces_ne_nil '/' text)
        | cons first rest =>
            rw [hpieces, behindSlashes_cons] at ih
            dsimp only
            rw [behindSlashes_cons, List.cons_append, (List.cons.inj ih).2]

theorem behindSlashes_eq {texts : List (List Char)} (h : texts ≠ []) :
    behindSlashes texts = '/' :: List.intercalate ['/'] texts := by
  induction texts with
  | nil => contradiction
  | cons text texts ih =>
      rw [behindSlashes_cons]
      cases texts with
      | nil => simp [behindSlashes]
      | cons next texts =>
          rw [ih (List.cons_ne_nil _ _), List.intercalate_cons_cons, List.append_assoc,
            List.singleton_append]

/-- **All needless pieces** may be left out of a pattern. -/
theorem reads_filter {as : List Char} {pieces : List (List Char)}
    (h : Reads (as ++ behindSlashes pieces)) :
    Reads (as ++ behindSlashes (pieces.filter (¬ Needless ·))) := by
  induction pieces generalizing as with
  | nil => exact h
  | cons piece pieces ih =>
      rw [behindSlashes_cons] at h
      by_cases hpiece : Needless piece
      · rw [List.filter_cons_of_neg (by simpa using hpiece)]
        exact ih (reads_of_needless hpiece (breaks_behindSlashes pieces) h)
      · have hmore : Reads (as ++ '/' :: piece ++ behindSlashes pieces) := by simpa using h
        rw [List.filter_cons_of_pos (by simpa using hpiece), behindSlashes_cons]
        simpa using ih hmore

/-- The text of pieces is a pattern if that of the first ones is, and that of the others. -/
theorem reads_append {as bs : List (List Char)} (has : Reads (behindSlashes as))
    (hbs : Reads (behindSlashes bs)) : Reads (behindSlashes (as ++ bs)) := by
  cases bs with
  | nil => rwa [List.append_nil]
  | cons b bs =>
      rw [behindSlashes, List.flatMap_append]
      exact has.append_slash (reads_slash_cons.1 hbs)

/-! ## resolved patterns -/

/-- The text of components, each behind a slash, is a pattern. -/
def ReadsAs (cs : List Component) : Prop := Reads (behindSlashes (cs.map fun c => c.text.toList))

theorem ReadsAs.append {cs ds : List Component} (hcs : ReadsAs cs) (hds : ReadsAs ds) :
    ReadsAs (cs ++ ds) := by
  rw [ReadsAs, List.map_append]
  exact reads_append hcs hds

theorem readsAs_iff {cs : List Component} : ReadsAs cs ↔ Reads (joined cs) := by
  cases cs with
  | nil => exact .rfl
  | cons c cs => rw [ReadsAs, behindSlashes_eq (by simp), reads_slash_cons, joined]

/-- **The steps of a pattern** are a pattern without its needless pieces. -/
theorem readsAs_steps {pattern : String} (habsolute : isAbsolute pattern = false)
    (h : (Pattern.parse pattern).isOk = true) : ReadsAs (steps pattern) := by
  have hwhole : Reads (behindSlashes (Text.pieces '/' pattern.toList)) := by
    rw [behindSlashes_pieces, reads_slash_cons]
    exact h
  rw [ReadsAs, map_text_steps habsolute]
  exact @reads_filter [] _ hwhole

/-- **A pattern behind a root** is a pattern if the steps of both are. -/
theorem isOk_parse_resolve {root pattern : String} (hroot : isAbsolute root = false)
    (hpattern : isAbsolute pattern = false) :
    (Pattern.parse (resolve root pattern)).isOk = true ↔ ReadsAs (steps root ++ steps pattern) := by
  rw [readsAs_iff, Pattern.parse, toList_resolve hroot hpattern]
  split
  · rename_i hnone
    rw [hnone]
    exact iff_of_true rfl rfl
  · rfl

end LocaleAudit.Glob
