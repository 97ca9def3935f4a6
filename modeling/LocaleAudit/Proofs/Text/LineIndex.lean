import LocaleAudit.Proofs.Text.Part
import LocaleAudit.Proofs.Text.Pieces
import LocaleAudit.Proofs.Text.Position

/-!
# LocaleAudit.Proofs.Text.LineIndex

Lines and columns by an index.  The index of a text is the list of the offsets where its lines
start; an offset is looked up in it by halves, and the column is the length of a part of the text.
Each of these steps can fail: an entry may not be there, a number may have none before it, a part
may end inside a character or behind the text.  None does, and what the index says is what stepping
through the text says.

* `search_eq` — the search finds how many lines start at an offset or in front of it;
* `position?_eq`, `lineText?_eq` — the index answers every question, and like the text;
* `exactLines` — what the places and the lines of a text are.
-/

namespace LocaleAudit.Text

/-! ## the index -/

/-- The offsets behind the newlines of a text that starts at an offset. -/
def startsBehind (o : Nat) : List Char → List Nat
  | [] => []
  | c :: cs =>
    if c = '\n' then (o + c.utf8Size) :: startsBehind (o + c.utf8Size) cs
    else startsBehind (o + c.utf8Size) cs

/-- A text and the offsets where its lines start. -/
structure LineIndex where
  /-- The text. -/
  text : List Char
  /-- Where its lines start. -/
  starts : List Nat

/-- The number before another one; there is none before zero. -/
def before? : Nat → Option Nat
  | 0 => none
  | n + 1 => some n

/-- The number of lines up to what a search has found. -/
def linesFound : Except Nat Nat → Nat
  | .ok place => place + 1
  | .error place => place

namespace LineIndex

/-- The index of a text. -/
def ofText (text : List Char) : LineIndex := ⟨text, 0 :: startsBehind 0 text⟩

/-- Looks for an offset between two places of an ascending list by halves: the place where it is, or
else the place where it would have to be. -/
def search (starts : List Nat) (offset lo hi : Nat) : Option (Except Nat Nat) :=
  if lo < hi then
    let mid := lo + (hi - lo) / 2
    match starts[mid]? with
    | none => none
    | some start =>
      if start = offset then some (.ok mid)
      else if start < offset then search starts offset (mid + 1) hi
      else search starts offset lo mid
  else some (.error lo)
termination_by hi - lo

/-- The line that an offset lies on. -/
def lineOf? (index : LineIndex) (offset : Nat) : Option Nat :=
  (search index.starts offset 0 index.starts.length).map linesFound

/-- The place of an offset: the column counts the characters from the start of the line, if the
offset does not lie inside a character. -/
def position? (index : LineIndex) (offset : Nat) : Option Position := do
  let line ← index.lineOf? offset
  let start ← index.starts[← before? line]?
  let stop := min offset (byteLength index.text)
  some ⟨line, ((part? start stop index.text).map List.length).getD 0 + 1⟩

/-- A line: the part from its start to the newline in front of the next one, without the carriage
returns at its end. -/
def lineText? (index : LineIndex) (line : Nat) : Option (List Char) :=
  match (before? line).bind (index.starts[·]?) with
  | none => some []
  | some start => do
    let stop ← match index.starts[line]? with
      | some next => before? next
      | none => some (byteLength index.text)
    let cs ← part? start stop index.text
    some (trimEnd (· == '\r') cs)

end LineIndex

/-! ## where lines start -/

theorem startsBehind_append (o : Nat) (xs ys : List Char) :
    startsBehind o (xs ++ ys) = startsBehind o xs ++ startsBehind (o + byteLength xs) ys := by
  induction xs generalizing o with
  | nil => rfl
  | cons c xs ih =>
      rw [List.cons_append, startsBehind, startsBehind, ih, byteLength_cons, Nat.add_assoc]
      split
      · rw [List.cons_append]
      · rfl

theorem length_startsBehind (o : Nat) (cs : List Char) :
    (startsBehind o cs).length = cs.count '\n' := by
  induction cs generalizing o with
  | nil => rfl
  | cons c cs ih =>
      rw [startsBehind]
      split
      · rename_i hc
        rw [List.length_cons, ih, hc, List.count_cons_self]
      · rename_i hc
        rw [ih, List.count_cons_of_ne hc]

/-- Lines start inside a text or at its end, but not at its start. -/
theorem bounds_of_mem_startsBehind {o start : Nat} {cs : List Char}
    (h : start ∈ startsBehind o cs) : o < start ∧ start ≤ o + byteLength cs := by
  induction cs generalizing o with
  | nil => contradiction
  | cons c cs ih =>
      have hpos := c.utf8Size_pos
      rw [startsBehind] at h
      rw [byteLength_cons]
      split at h
      · rcases List.mem_cons.1 h with rfl | h
        · omega
        · have := ih h
          omega
      · have := ih h
        omega

theorem pairwise_startsBehind (o : Nat) (cs : List Char) :
    (startsBehind o cs).Pairwise (· < ·) := by
  induction cs generalizing o with
  | nil => exact .nil
  | cons c cs ih =>
      rw [startsBehind]
      split
      · exact .cons (fun _ h => (bounds_of_mem_startsBehind h).1) (ih _)
      · exact ih _

theorem startsBehind_of_not_mem {o : Nat} {cs : List Char} (h : '\n' ∉ cs) :
    startsBehind o cs = [] := by
  rw [← List.length_eq_zero_iff, length_startsBehind, List.count_eq_zero.2 h]

/-- A line starts behind the lines in front of it. -/
theorem getElem?_starts {earlier line : List Char} (hearlier : EndsLine earlier)
    (hline : '\n' ∉ line) (after : List Char) :
    (0 :: startsBehind 0 (earlier ++ line ++ after))[(earlier ++ line).count '\n']? =
      some (byteLength earlier) := by
  have hcount : (earlier ++ line).count '\n' = earlier.count '\n' := by
    rw [List.count_append, List.count_eq_zero.2 hline, Nat.add_zero]
  have hfirst : (0 :: startsBehind 0 earlier)[earlier.count '\n']? = some (byteLength earlier) := by
    rcases hearlier with rfl | ⟨ds, rfl⟩
    · rfl
    · have hlength := length_startsBehind 0 ds
      rw [startsBehind_append, List.count_append, byteLength_append]
      simp [startsBehind, ← hlength, Char.utf8Size]
  have hlt : earlier.count '\n' < (0 :: startsBehind 0 earlier).length := by
    rw [List.length_cons, length_startsBehind]
    exact Nat.lt_succ_self _
  rw [startsBehind_append, startsBehind_append, startsBehind_of_not_mem hline, List.append_nil,
    hcount, ← List.cons_append, List.getElem?_append_left hlt, hfirst]

/-! ## the search -/

/-- **The search** in an ascending list finds how many of its entries are not behind an offset. -/
theorem search_eq {starts : List Nat} {offset n : Nat} (hsorted : starts.Pairwise (· < ·))
    (hsplit : ∀ i start, starts[i]? = some start → (start ≤ offset ↔ i < n)) {lo hi : Nat}
    (hlo : lo ≤ n) (hhi : n ≤ hi) (hlength : hi ≤ starts.length) :
    (LineIndex.search starts offset lo hi).map linesFound = some n := by
  -- the entries in front of `lo` are not behind the offset, and those from `hi` on are
  fun_induction LineIndex.search starts offset lo hi with
  | case1 lo hi hlt mid hmid =>
      rw [List.getElem?_eq_none_iff] at hmid
      omega
  | case2 lo hi hlt mid hmid =>
      have hfront := (hsplit mid offset hmid).1 (Nat.le_refl offset)
      obtain ⟨hmid, hstart⟩ := List.getElem?_eq_some_iff.1 hmid
      have hnext : ¬ mid + 1 < n := fun h => by
        have hle := (hsplit (mid + 1) _ (List.getElem?_eq_getElem (by omega))).2 h
        have hascends := List.pairwise_iff_getElem.1 hsorted mid (mid + 1) hmid (by omega)
          (Nat.lt_succ_self mid)
        omega
      rw [Option.map_some, linesFound]
      congr 1
      omega
  | case3 lo hi hlt mid start hmid hne hless ih =>
      have hfront := (hsplit mid start hmid).1 (Nat.le_of_lt hless)
      exact ih hfront hhi hlength
  | case4 lo hi hlt mid start hmid hne hless ih =>
      have hbehind : ¬ mid < n := fun h => by
        have := (hsplit mid start hmid).2 h
        omega
      exact ih hlo (by omega) (by omega)
  | case5 lo hi hnot =>
      rw [Option.map_some, linesFound]
      congr 1
      omega

/-! ## offsets -/

/-- How far a text reaches in front of an offset: up to the offset, up to the end of the text in
front of it, or up to the character that it lies inside of. -/
inductive Reaches (offset : Nat) (before : List Char) : List Char → Prop
  | boundary {after : List Char} (h : offset = byteLength before) : Reaches offset before after
  | beyond (h : byteLength before < offset) : Reaches offset before []
  | inside {c : Char} {rest : List Char} (hlo : byteLength before < offset)
      (hhi : offset < byteLength before + c.utf8Size) : Reaches offset before (c :: rest)

theorem exists_reaches (offset : Nat) (text : List Char) :
    ∃ before after, text = before ++ after ∧ Reaches offset before after := by
  induction text generalizing offset with
  | nil =>
      rcases Nat.eq_zero_or_pos offset with hzero | hpos
      · exact ⟨[], [], rfl, .boundary hzero⟩
      · exact ⟨[], [], rfl, .beyond hpos⟩
  | cons c cs ih =>
      by_cases hsize : c.utf8Size ≤ offset
      · obtain ⟨before, after, rfl, hreaches⟩ := ih (offset - c.utf8Size)
        refine ⟨c :: before, after, rfl, ?_⟩
        cases hreaches with
        | boundary h => exact .boundary (by rw [byteLength_cons]; omega)
        | beyond h => exact .beyond (by rw [byteLength_cons]; omega)
        | inside hlo hhi =>
            exact .inside (by rw [byteLength_cons]; omega) (by rw [byteLength_cons]; omega)
      · rcases Nat.eq_zero_or_pos offset with hzero | hpos
        · exact ⟨[], c :: cs, rfl, .boundary hzero⟩
        · exact ⟨[], c :: cs, rfl, .inside hpos (by rw [byteLength_nil]; omega)⟩

section reaches

variable {offset : Nat} {before after : List Char}

theorem Reaches.le (h : Reaches offset before after) : byteLength before ≤ offset := by
  cases h with
  | boundary h => exact Nat.le_of_eq h.symm
  | beyond h => exact Nat.le_of_lt h
  | inside hlo _ => exact Nat.le_of_lt hlo

/-- The lines behind what is reached start behind the offset. -/
theorem Reaches.lt (h : Reaches offset before after) :
    ∀ start ∈ startsBehind (byteLength before) after, offset < start := by
  intro start hstart
  cases h with
  | boundary h => exact h ▸ (bounds_of_mem_startsBehind hstart).1
  | beyond h => contradiction
  | @inside c rest hlo hhi =>
      have hrest : start ∈ startsBehind (byteLength before) ([c] ++ rest) := hstart
      rw [startsBehind_append] at hrest
      rcases List.mem_append.1 hrest with hfirst | hrest
      · rw [startsBehind] at hfirst
        split at hfirst
        · rw [List.mem_singleton.1 hfirst]
          exact hhi
        · contradiction
      · have hbounds := bounds_of_mem_startsBehind hrest
        simp only [byteLength_cons, byteLength_nil] at hbounds
        omega

/-- The search goes through the lines in front of an offset. -/
theorem lineOf?_eq (h : Reaches offset before after) :
    (LineIndex.ofText (before ++ after)).lineOf? offset = some (before.count '\n' + 1) := by
  have hlength := length_startsBehind 0 before
  have hstarts : 0 :: startsBehind 0 (before ++ after) =
      (0 :: startsBehind 0 before) ++ startsBehind (byteLength before) after := by
    rw [startsBehind_append, Nat.zero_add, List.cons_append]
  have hsorted : (0 :: startsBehind 0 (before ++ after)).Pairwise (· < ·) :=
    .cons (fun _ h => (bounds_of_mem_startsBehind h).1) (pairwise_startsBehind _ _)
  refine search_eq hsorted ?_ (Nat.zero_le _) ?_ (Nat.le_refl _)
  · intro i start hstart
    change (0 :: startsBehind 0 (before ++ after))[i]? = some start at hstart
    rw [hstarts, List.getElem?_append, List.length_cons, hlength] at hstart
    split at hstart
    · rename_i hi
      refine iff_of_true ?_ hi
      rcases List.mem_cons.1 (List.mem_of_getElem? hstart) with rfl | hmem
      · exact Nat.zero_le _
      · have hbounds := bounds_of_mem_startsBehind hmem
        have hle := h.le
        omega
    · rename_i hi
      exact iff_of_false (Nat.not_le_of_lt (h.lt start (List.mem_of_getElem? hstart))) hi
  · change _ ≤ (0 :: startsBehind 0 (before ++ after)).length
    rw [hstarts, List.length_append, List.length_cons, hlength]
    exact Nat.le_add_right _ _

/-- The place of an offset is told by what is reached; inside a character the first column stands
for it. -/
theorem position_of_reaches (h : Reaches offset before after) :
    position (before ++ after) offset =
      if offset = byteLength before ∨ after = [] then placeBehind before
      else ⟨(placeBehind before).line, 1⟩ := by
  have hstart : position (before ++ after) offset =
      positionFrom (placeBehind before) (offset - byteLength before) after := by
    have hadd := positionFrom_add Position.start (offset - byteLength before) before after
    rw [Nat.add_sub_cancel' h.le] at hadd
    rw [position, hadd]
    exact congrArg (positionFrom · _ _) (foldl_step [] before)
  rw [hstart]
  cases h with
  | boundary h => rw [if_pos (.inl h), h, Nat.sub_self, positionFrom_zero]
  | beyond h => rw [if_pos (.inr rfl), positionFrom]
  | @inside c rest hlo hhi =>
      have hnot : ¬ (offset = byteLength before ∨ c :: rest = []) := by
        rintro (h | h)
        · omega
        · contradiction
      rw [if_neg hnot, positionFrom, if_neg (by omega), if_pos (by omega)]

/-- Up to an offset inside a character there is no part of a text. -/
theorem part?_eq_none_of_inside {c : Char} {rest : List Char} {lo : Nat}
    (hlo : byteLength before < offset) (hhi : offset < byteLength before + c.utf8Size) :
    part? lo offset (before ++ c :: rest) = none := by
  rw [Option.eq_none_iff_forall_ne_some]
  intro cs hpart
  obtain ⟨front, back, htext, hfront, hoffset⟩ := part?_eq_some_iff.1 hpart
  rw [← byteLength_append] at hoffset
  rcases List.append_eq_append_iff.1 htext with ⟨more, hmore, hrest⟩ | ⟨more, hmore, -⟩
  · rw [hmore, byteLength_append] at hoffset
    cases more with
    | nil =>
        rw [byteLength_nil] at hoffset
        omega
    | cons d more =>
        obtain rfl := (List.cons.inj hrest).1
        rw [byteLength_cons] at hoffset
        omega
  · rw [hmore, byteLength_append] at hlo
    omega

end reaches

/-! ## places -/

namespace LineIndex

/-- **The index has a place for every offset**, and it is the one that stepping through the text
leads to. -/
theorem position?_eq (text : List Char) (offset : Nat) :
    (ofText text).position? offset = some (position text offset) := by
  obtain ⟨before, after, rfl, hreaches⟩ := exists_reaches offset text
  obtain ⟨earlier, line, rfl, hearlier, hline⟩ := exists_last_line before
  have hstart : (ofText (earlier ++ line ++ after)).starts[(earlier ++ line).count '\n']? =
      some (byteLength earlier) := getElem?_starts hearlier hline after
  have hplace := placeBehind_append hearlier hline
  have hlast (hafter : offset = byteLength (earlier ++ line) ∨ after = []) :
      part? (byteLength earlier) (min offset (byteLength (earlier ++ line ++ after)))
        (earlier ++ line ++ after) = some line := by
    refine part?_eq_some_iff.2 ⟨earlier, after, rfl, rfl, ?_⟩
    have hle := hreaches.le
    rw [← byteLength_append]
    rcases hafter with rfl | rfl
    · rw [byteLength_append _ after]
      omega
    · rw [List.append_nil]
      omega
  rw [position?, lineOf?_eq hreaches, position_of_reaches hreaches, hplace]
  simp only [Option.bind_eq_bind, Option.bind_some, before?, hstart]
  by_cases hafter : offset = byteLength (earlier ++ line) ∨ after = []
  · rw [if_pos hafter, ofText, hlast hafter]
    rfl
  · rw [if_neg hafter]
    cases hreaches with
    | boundary h => exact absurd (.inl h) hafter
    | beyond h => exact absurd (.inr rfl) hafter
    | @inside c rest hlo hhi =>
        have hmin : min offset (byteLength (earlier ++ line ++ c :: rest)) = offset := by
          rw [byteLength_append _ (c :: rest), byteLength_cons]
          omega
        rw [ofText, hmin, part?_eq_none_of_inside hlo hhi]
        rfl

end LineIndex

/-! ## the lines -/

theorem length_pieces (mark : Char) (text : List Char) :
    (pieces mark text).length = text.count mark + 1 := by
  induction text with
  | nil => rfl
  | cons c cs ih =>
      rw [pieces]
      split
      · rename_i hc
        rw [hc, List.length_cons, ih, List.count_cons_self]
      · rename_i hc
        rw [List.count_cons_of_ne hc, ← ih]
        cases hpieces : pieces mark cs with
        | nil => exact absurd hpieces (pieces_ne_nil mark cs)
        | cons piece rest => rfl

/-- Behind the first newline of a text its lines start anew. -/
theorem startsBehind_line {line : List Char} (h : '\n' ∉ line) (o : Nat) (rest : List Char) :
    startsBehind o (line ++ '\n' :: rest) =
      (o + byteLength line + 1) :: startsBehind (o + byteLength line + 1) rest := by
  rw [startsBehind_append, startsBehind_of_not_mem h, List.nil_append, startsBehind, if_pos rfl]
  rfl

/-- A piece between newlines goes from the start of its line to the newline in front of the next
line, or to the end of the text. -/
theorem exists_of_getElem?_pieces {text piece : List Char} {n : Nat} (o : Nat)
    (h : (pieces '\n' text)[n]? = some piece) :
    ∃ earlier after, text = earlier ++ piece ++ after ∧
      (o :: startsBehind o text)[n]? = some (o + byteLength earlier) ∧
      (after = [] ∧ (o :: startsBehind o text)[n + 1]? = none ∨
        ∃ t, after = '\n' :: t ∧ (o :: startsBehind o text)[n + 1]? =
          some (o + byteLength earlier + byteLength piece + 1)) := by
  -- line by line: behind the first newline the text starts anew, at a later offset
  by_cases hmem : '\n' ∈ text
  · obtain ⟨line, rest, rfl, hline⟩ := List.eq_append_cons_of_mem hmem
    rw [pieces_append, pieces_of_not_mem hline] at h
    rw [startsBehind_line hline]
    cases n with
    | zero =>
        obtain rfl : line = piece := Option.some.inj h
        exact ⟨[], '\n' :: rest, rfl, rfl, .inr ⟨rest, rfl, rfl⟩⟩
    | succ n =>
        obtain ⟨earlier, after, rfl, hstart, hnext⟩ :=
          exists_of_getElem?_pieces (o + byteLength line + 1) h
        have hoffset : o + byteLength (line ++ '\n' :: earlier) =
            o + byteLength line + 1 + byteLength earlier := by
          have hnewline : '\n'.utf8Size = 1 := rfl
          rw [byteLength_append, byteLength_cons, hnewline]
          omega
        refine ⟨line ++ '\n' :: earlier, after, by simp, ?_, ?_⟩
        · rw [hoffset]
          exact hstart
        · rw [hoffset]
          exact hnext
  · rw [pieces_of_not_mem hmem] at h
    rw [startsBehind_of_not_mem hmem]
    cases n with
    | zero =>
        obtain rfl : text = piece := Option.some.inj h
        exact ⟨[], [], by simp, rfl, .inl ⟨rfl, rfl⟩⟩
    | succ n => contradiction

/-- A character is taken off the end of a text as often as it stands there. -/
theorem trimEnd_spec (drop : Char) (text : List Char) :
    ∃ k, text = trimEnd (· == drop) text ++ List.replicate k drop ∧
      (trimEnd (· == drop) text).getLast? ≠ some drop := by
  have hdropped : ∀ c ∈ text.reverse.takeWhile (· == drop), c = drop := by
    intro c hc
    exact eq_of_beq (List.all_eq_true.1 List.all_takeWhile c hc)
  refine ⟨(text.reverse.takeWhile (· == drop)).length, ?_, ?_⟩
  · have htake := List.takeWhile_append_dropWhile (p := (· == drop)) (l := text.reverse)
    rw [List.eq_replicate_of_mem hdropped, ← List.reverse_eq_iff, List.reverse_append,
      List.reverse_replicate] at htake
    exact htake.symm
  · rw [trimEnd, List.getLast?_reverse]
    intro hlast
    have hnot := List.head?_dropWhile_not (· == drop) text.reverse
    rw [hlast] at hnot
    exact absurd hnot (by simp)

/-- **The index has a line for every number**, and it is the line of the text. -/
theorem LineIndex.lineText?_eq (text : List Char) (n : Nat) :
    (ofText text).lineText? n = some (lineText text n) := by
  cases n with
  | zero => rfl
  | succ n =>
      rw [lineText?, lineText, ofText, before?, Option.bind_some]
      cases hpiece : (pieces '\n' text)[n]? with
      | none =>
          have hnone : (0 :: startsBehind 0 text)[n]? = none := by
            rw [List.getElem?_eq_none_iff, length_pieces] at hpiece
            rw [List.getElem?_eq_none_iff, List.length_cons, length_startsBehind]
            exact hpiece
          simp only [hnone]
          rfl
      | some piece =>
          obtain ⟨earlier, after, htext, hstart, hnext⟩ := exists_of_getElem?_pieces 0 hpiece
          rw [Nat.zero_add] at hstart
          have hpart : part? (byteLength earlier) (byteLength earlier + byteLength piece) text =
              some piece := part?_eq_some_iff.2 ⟨earlier, after, htext, rfl, rfl⟩
          rcases hnext with ⟨rfl, hnext⟩ | ⟨t, -, hnext⟩
          · have hlength : byteLength text = byteLength earlier + byteLength piece := by
              rw [htext, List.append_nil, byteLength_append]
            simp only [hstart, hnext, hlength, hpart, Option.bind_eq_bind, Option.bind_some]
            rfl
          · rw [Nat.zero_add] at hnext
            simp only [hstart, hnext, before?, hpart, Option.bind_eq_bind, Option.bind_some]
            rfl

/-! ## exact lines -/

/-- What the places and the lines that the index of a text gives are. -/
structure ExactLines (text : List Char) : Prop where
  /-- Every offset has a place, the one that stepping through the text leads to. -/
  position? : ∀ offset, (LineIndex.ofText text).position? offset = some (position text offset)
  /-- Every number has a line, the one that the pieces of the text give. -/
  lineText? : ∀ n, (LineIndex.ofText text).lineText? n = some (lineText text n)
  /-- The line of a place counts the newlines in front of it, and its column the characters from the
  last of them. -/
  place : ∀ before after, text = before ++ after →
    ∃ earlier line, before = earlier ++ line ∧ EndsLine earlier ∧ '\n' ∉ line ∧
      position text (byteLength before) = ⟨before.count '\n' + 1, line.length + 1⟩
  /-- Places ascend. -/
  ascends : ∀ before after before' after', text = before ++ after → text = before' ++ after' →
    byteLength before < byteLength before' →
    (position text (byteLength before)).Before (position text (byteLength before'))
  /-- Different offsets have different places. -/
  injective : ∀ before after before' after', text = before ++ after → text = before' ++ after' →
    position text (byteLength before) = position text (byteLength before') →
    byteLength before = byteLength before'
  /-- No line has number zero. -/
  lineText_zero : lineText text 0 = []
  /-- A line is what stands between two newlines, without the carriage returns at its end. -/
  lineText_of_some : ∀ n piece, (text.splitOn '\n')[n]? = some piece →
    ∃ k, piece = lineText text (n + 1) ++ List.replicate k '\r' ∧
      (lineText text (n + 1)).getLast? ≠ some '\r'
  /-- The lines after the last are empty. -/
  lineText_of_none : ∀ n, (text.splitOn '\n')[n]? = none → lineText text (n + 1) = []

/-- **Places and lines are exact.** For every offset and every line number the index of a text finds
the entries that it needs. An offset that does not lie inside a character is on the line that the
newlines in front of it count, in the column that the characters from the last of them count, and it
comes before every later one. A line is a piece of the text between newlines. -/
theorem exactLines (text : List Char) : ExactLines text where
  position? := LineIndex.position?_eq text
  lineText? := LineIndex.lineText?_eq text
  place := by
    rintro before after rfl
    obtain ⟨earlier, line, rfl, hearlier, hline⟩ := exists_last_line before
    refine ⟨earlier, line, rfl, hearlier, hline, ?_⟩
    rw [position_append, placeBehind_append hearlier hline]
  ascends := fun _ _ _ _ h h' hlt => position_before h h' hlt
  injective := by
    intro before after before' after' h h' heq
    rcases Nat.lt_trichotomy (byteLength before) (byteLength before') with hlt | hsame | hlt
    · exact absurd heq (position_before h h' hlt).ne
    · exact hsame
    · exact absurd heq.symm (position_before h' h hlt).ne
  lineText_zero := rfl
  lineText_of_some := by
    intro n piece hpiece
    rw [lineText, pieces_eq_splitOn, hpiece, Option.getD_some]
    exact trimEnd_spec '\r' piece
  lineText_of_none := by
    intro n hnone
    rw [lineText, pieces_eq_splitOn, hnone]
    rfl

end LocaleAudit.Text
