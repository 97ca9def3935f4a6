import LocaleAudit.Proofs.Component.Comment
import LocaleAudit.Proofs.Text.Bytes
import LocaleAudit.Proofs.Text.LineIndex
import LocaleAudit.Proofs.Text.Search

/-!
# LocaleAudit.Proofs.Component.Blanking

Comments are blanked in place.  A cursor goes from comment to comment, and the bytes of each one are
overwritten in a copy of the bytes of the template.  A cut at the cursor could lie inside a
character, and what is overwritten could be no text any more.  Neither happens: the bytes are those
of the text that is blanked character by character.

* `exists_commented` — a text falls into its comments and what is between them;
* `overwrite?_eq` — the run of the cursor;
* `exactBlanking` — what is blanked, and what is left as it is.
-/

namespace LocaleAudit.Component

open Text Slice

/-! ## in place -/

/-- What opens a comment. -/
def opening : List Char := ['<', '!', '-', '-']

/-- What closes a comment. -/
def closing : List Char := ['-', '-', '>']

/-- What takes the place of a byte of a comment: a space, except that a newline stays. -/
def blankByte (b : UInt8) : UInt8 := if b = '\n'.toUInt8 then b else ' '.toUInt8

/-- Some bytes, of which those from one offset up to another are blanked. -/
def blankBetween (lo hi : Nat) (bs : List UInt8) : List UInt8 :=
  bs.mapIdx fun i b => if lo ≤ i ∧ i < hi then blankByte b else b

/-- The first comment behind a cursor, from its start to its end, if there is one. Nothing can be
said where the text is cut inside a character. -/
def nextComment? (text : List Char) (cursor : Nat) : Option (Option (Nat × Nat)) :=
  (split? cursor text).bind fun s =>
    match breakText? opening s.2 with
    | none => some none
    | some (before, _) =>
      let start := cursor + byteLength before
      (split? (start + 4) text).map fun t =>
        match breakText? closing t.2 with
        | none => some (start, byteLength text)
        | some (body, _) => some (start, start + 4 + byteLength body + 3)

theorem lt_of_nextComment? {text : List Char} {cursor start stop : Nat}
    (h : nextComment? text cursor = some (some (start, stop))) :
    cursor < stop ∧ cursor < byteLength text := by
  obtain ⟨s, -, h⟩ := Option.bind_eq_some_iff.1 h
  split at h
  · have h := Option.some.inj h
    contradiction
  · rename_i before rest hopen
    obtain ⟨⟨front, back⟩, hsplit, h⟩ := Option.map_eq_some_iff.1 h
    obtain ⟨rfl, hoffset⟩ := split?_eq_some_iff.1 hsplit
    rw [byteLength_append]
    split at h
    · obtain ⟨rfl, rfl⟩ := Prod.mk.inj (Option.some.inj h)
      rw [byteLength_append]
      omega
    · obtain ⟨rfl, rfl⟩ := Prod.mk.inj (Option.some.inj h)
      omega

/-- Some bytes, of which those of the comments of a text behind a cursor are blanked. -/
def overwrite? (text : List Char) (cursor : Nat) (bs : List UInt8) : Option (List UInt8) :=
  match _h : nextComment? text cursor with
  | none => none
  | some none => some bs
  | some (some (start, stop)) => overwrite? text stop (blankBetween start stop bs)
termination_by byteLength text - cursor
decreasing_by
  have := lt_of_nextComment? _h
  omega

theorem overwrite?_of_none {text : List Char} {cursor : Nat}
    (h : nextComment? text cursor = some none) (bs : List UInt8) :
    overwrite? text cursor bs = some bs := by
  rw [overwrite?]
  split <;> simp_all

theorem overwrite?_of_some {text : List Char} {cursor start stop : Nat}
    (h : nextComment? text cursor = some (some (start, stop))) (bs : List UInt8) :
    overwrite? text cursor bs = overwrite? text stop (blankBetween start stop bs) := by
  rw [overwrite?]
  split <;> simp_all

/-! ## where comments are -/

/-- The first place from an offset on where a mark stands in some bytes. -/
structure FirstFrom (mark bs : List UInt8) (lo place : Nat) : Prop where
  le : lo ≤ place
  here : mark <+: bs.drop place
  first : ∀ i, lo ≤ i → i < place → ¬ mark <+: bs.drop i

/-- The comments in some bytes from an offset on, each from its start to its end. A comment goes
through the first closing mark that starts at least four bytes behind the start of its opening mark;
if there is none it goes to the end. The next one is looked for behind it. -/
inductive CommentsFrom (bs : List UInt8) : Nat → List (Nat × Nat) → Prop
  | none {lo : Nat} (h : ∀ i, lo ≤ i → ¬ bytes opening <+: bs.drop i) : CommentsFrom bs lo []
  | unclosed {lo start : Nat} (hopen : FirstFrom (bytes opening) bs lo start)
      (hclose : ∀ i, start + 4 ≤ i → ¬ bytes closing <+: bs.drop i) :
      CommentsFrom bs lo [(start, bs.length)]
  | closed {lo start stop : Nat} {comments : List (Nat × Nat)}
      (hopen : FirstFrom (bytes opening) bs lo start)
      (hclose : FirstFrom (bytes closing) bs (start + 4) stop)
      (hrest : CommentsFrom bs (stop + 3) comments) :
      CommentsFrom bs lo ((start, stop + 3) :: comments)

/-- An offset lies in a comment. -/
def Inside (comments : List (Nat × Nat)) (i : Nat) : Prop := ∃ c ∈ comments, c.1 ≤ i ∧ i < c.2

/-! ## a text and its comments -/

/-- A text as its comments, each behind what stands in front of it, and what is behind the last. -/
inductive Commented : List Char → List (List Char × List Char) → List Char → Prop
  | last {text : List Char} (h : ¬ opening <:+: text) : Commented text [] text
  | unclosed {text before inside : List Char}
      (hopen : breakText? opening text = some (before, inside)) (hclose : ¬ closing <:+: inside) :
      Commented text [(before, opening ++ inside)] []
  | closed {text before inside body after last : List Char} {parts : List (List Char × List Char)}
      (hopen : breakText? opening text = some (before, inside))
      (hclose : breakText? closing inside = some (body, after))
      (hafter : Commented after parts last) :
      Commented text ((before, opening ++ body ++ closing) :: parts) last

/-- **Every text falls into its comments** and what is between them. -/
theorem exists_commented (text : List Char) : ∃ parts last, Commented text parts last := by
  cases hopen : breakText? opening text with
  | none => exact ⟨[], text, .last (breakText?_eq_none_iff.1 hopen)⟩
  | some found =>
      obtain ⟨before, inside⟩ := found
      cases hclose : breakText? closing inside with
      | none => exact ⟨_, [], .unclosed hopen (breakText?_eq_none_iff.1 hclose)⟩
      | some found =>
          obtain ⟨body, after⟩ := found
          have hshorter : after.length < text.length := by
            have hopening : opening.length = 4 := rfl
            rw [← text_of_breakText? hopen, ← text_of_breakText? hclose]
            simp only [List.length_append, hopening]
            omega
          obtain ⟨parts, last, hafter⟩ := exists_commented after
          exact ⟨_, last, .closed hopen hclose hafter⟩
termination_by text.length

/-- Where the comments are whose parts stand behind an offset. -/
def placesFrom (o : Nat) : List (List Char × List Char) → List (Nat × Nat)
  | [] => []
  | (before, comment) :: parts =>
    let stop := o + byteLength before + byteLength comment
    (o + byteLength before, stop) :: placesFrom stop parts

/-- A mark that stands in the bytes of a text behind a beginning stands in what is behind it. -/
theorem exists_of_prefix_drop {mark front text : List Char} (hne : mark ≠ []) {i : Nat}
    (hi : byteLength front ≤ i) (h : bytes mark <+: (bytes (front ++ text)).drop i) :
    ∃ more after, text = more ++ mark ++ after ∧ i = byteLength front + byteLength more := by
  obtain ⟨before, after, htext, rfl⟩ := (prefix_drop_bytes_iff hne).1 h
  rw [List.append_assoc] at htext
  rcases List.append_eq_append_iff.1 htext with ⟨more, rfl, hmore⟩ | ⟨more, rfl, hmore⟩
  · exact ⟨more, after, by rw [hmore, List.append_assoc], byteLength_append front more⟩
  · cases more with
    | nil => exact ⟨[], after, hmore.symm, by rw [List.append_nil]; rfl⟩
    | cons c more =>
        have hpos := c.utf8Size_pos
        rw [byteLength_append, byteLength_cons] at hi
        omega

theorem firstFrom_of_breakText? {mark text before rest : List Char} (hne : mark ≠ [])
    (h : breakText? mark text = some (before, rest)) (front : List Char) :
    FirstFrom (bytes mark) (bytes (front ++ text)) (byteLength front)
      (byteLength front + byteLength before) where
  le := Nat.le_add_right _ _
  here := by
    refine (prefix_drop_bytes_iff hne).2 ⟨front ++ before, rest, ?_, byteLength_append _ _⟩
    rw [← text_of_breakText? h]
    simp only [List.append_assoc]
  first := by
    intro i hlo hhi hprefix
    obtain ⟨more, after, htext, rfl⟩ := exists_of_prefix_drop hne hlo hprefix
    obtain ⟨ds, rfl⟩ := prefix_of_breakText? h htext
    rw [byteLength_append] at hhi
    omega

theorem not_prefix_drop {mark text : List Char} (hne : mark ≠ []) (h : ¬ mark <:+: text)
    (front : List Char) (i : Nat) (hi : byteLength front ≤ i) :
    ¬ bytes mark <+: (bytes (front ++ text)).drop i := by
  intro hprefix
  obtain ⟨more, after, rfl, -⟩ := exists_of_prefix_drop hne hi hprefix
  exact h ⟨more, after, rfl⟩

section steps

variable {text before inside body after : List Char}

theorem byteLength_opening (front before : List Char) :
    byteLength (front ++ before ++ opening) = byteLength front + byteLength before + 4 := by
  rw [byteLength_append, byteLength_append]
  rfl

theorem byteLength_comment (body : List Char) :
    byteLength (opening ++ body ++ closing) = 4 + byteLength body + 3 := by
  rw [byteLength_append, byteLength_append]
  rfl

theorem append_of_opening (hopen : breakText? opening text = some (before, inside))
    (front : List Char) : front ++ text = front ++ before ++ opening ++ inside := by
  rw [← text_of_breakText? hopen]
  simp only [List.append_assoc]

theorem append_of_closing (hopen : breakText? opening text = some (before, inside))
    (hclose : breakText? closing inside = some (body, after)) (front : List Char) :
    front ++ text = front ++ before ++ (opening ++ body ++ closing) ++ after := by
  rw [append_of_opening hopen, ← text_of_breakText? hclose]
  simp only [List.append_assoc]

theorem byteLength_closing (front before body : List Char) :
    byteLength (front ++ before ++ (opening ++ body ++ closing)) =
      byteLength front + byteLength before + 4 + byteLength body + 3 := by
  rw [byteLength_append, byteLength_append, byteLength_comment, ← Nat.add_assoc, ← Nat.add_assoc]

theorem byteLength_unclosed (hopen : breakText? opening text = some (before, inside))
    (front : List Char) :
    byteLength front + byteLength before + byteLength (opening ++ inside) =
      byteLength (front ++ text) := by
  rw [append_of_opening hopen, List.append_assoc, byteLength_append (front ++ before),
    byteLength_append front]

theorem nextComment?_last (h : ¬ opening <:+: text) (front : List Char) :
    nextComment? (front ++ text) (byteLength front) = some none := by
  rw [nextComment?, split?_append, Option.bind_some, breakText?_eq_none_iff.2 h]

theorem nextComment?_opening (hopen : breakText? opening text = some (before, inside))
    (front : List Char) :
    nextComment? (front ++ text) (byteLength front) =
      match breakText? closing inside with
      | none => some (some (byteLength front + byteLength before, byteLength (front ++ text)))
      | some (body, _) =>
        some (some (byteLength front + byteLength before,
          byteLength front + byteLength before + 4 + byteLength body + 3)) := by
  have hsplit : split? (byteLength front + byteLength before + 4) (front ++ text) =
      some (front ++ before ++ opening, inside) := by
    rw [append_of_opening hopen, ← byteLength_opening]
    exact split?_append _ _
  rw [nextComment?, split?_append, Option.bind_some, hopen]
  dsimp only
  rw [hsplit, Option.map_some]
  cases breakText? closing inside with
  | none => rfl
  | some found => rfl

end steps

section commented

variable {text last : List Char} {parts : List (List Char × List Char)}

/-- **The comments** of a text stand in its bytes where its parts do. -/
theorem Commented.commentsFrom (h : Commented text parts last) (front : List Char) :
    CommentsFrom (bytes (front ++ text)) (byteLength front)
      (placesFrom (byteLength front) parts) := by
  have hopening : opening ≠ [] := by decide
  have hclosing : closing ≠ [] := by decide
  induction h generalizing front with
  | last h => exact .none (not_prefix_drop hopening h front)
  | @unclosed text before inside hopen hclose =>
      have hnone := not_prefix_drop hclosing hclose (front ++ before ++ opening)
      rw [← append_of_opening hopen, byteLength_opening] at hnone
      rw [placesFrom, placesFrom, byteLength_unclosed hopen, ← length_bytes (front ++ text)]
      exact .unclosed (firstFrom_of_breakText? hopening hopen front) hnone
  | @closed text before inside body after last parts hopen hclose _ ih =>
      have hfirst := firstFrom_of_breakText? hclosing hclose (front ++ before ++ opening)
      rw [← append_of_opening hopen, byteLength_opening] at hfirst
      have hrest := ih (front ++ before ++ (opening ++ body ++ closing))
      rw [← append_of_closing hopen hclose, byteLength_closing] at hrest
      rw [placesFrom, byteLength_comment, ← Nat.add_assoc, ← Nat.add_assoc]
      exact .closed (firstFrom_of_breakText? hopening hopen front) hfirst hrest

/-- **The run of the cursor** blanks comment after comment. -/
theorem Commented.overwrite?_eq (h : Commented text parts last) (front : List Char)
    (bs : List UInt8) :
    overwrite? (front ++ text) (byteLength front) bs =
      some ((placesFrom (byteLength front) parts).foldl
        (fun bs c => blankBetween c.1 c.2 bs) bs) := by
  induction h generalizing front bs with
  | last h =>
      exact overwrite?_of_none (nextComment?_last h front) bs
  | @unclosed text before inside hopen hclose =>
      have hnext := nextComment?_opening hopen front
      rw [breakText?_eq_none_iff.2 hclose] at hnext
      have hnil : ¬ opening <:+: [] := by decide
      have hend := nextComment?_last hnil (front ++ text)
      rw [List.append_nil] at hend
      rw [overwrite?_of_some hnext, overwrite?_of_none hend, placesFrom, placesFrom,
        byteLength_unclosed hopen]
      rfl
  | @closed text before inside body after last parts hopen hclose _ ih =>
      have hnext := nextComment?_opening hopen front
      rw [hclose] at hnext
      have hrest := ih (front ++ before ++ (opening ++ body ++ closing))
      rw [← append_of_closing hopen hclose, byteLength_closing] at hrest
      rw [overwrite?_of_some hnext, hrest, placesFrom, byteLength_comment, ← Nat.add_assoc,
        ← Nat.add_assoc]
      rfl

end commented

/-! ## what is blanked -/

/-- The mark that what is inside of a comment, or outside of one, ends at. -/
def ending (inside : Bool) : List Char := if inside then closing else opening

/-- What a character inside of a comment, or outside of one, leaves. -/
def kept (inside : Bool) (c : Char) : List Char := if inside then blanks c else [c]

theorem blankFrom_cons {inside : Bool} {c : Char} {cs : List Char}
    (h : ¬ ending inside <+: c :: cs) :
    blankFrom inside (c :: cs) = kept inside c ++ blankFrom inside cs := by
  cases inside with
  | false =>
      rw [blankFrom]
      · rfl
      · rintro rest rfl rfl
        exact h ⟨rest, rfl⟩
  | true =>
      rw [blankFrom]
      · rfl
      · rintro rest rfl rfl
        exact h ⟨rest, rfl⟩

theorem blankFrom_ending (inside : Bool) (cs : List Char) :
    blankFrom inside (ending inside ++ cs) =
      (ending inside).flatMap blanks ++ blankFrom (!inside) cs := by
  cases inside <;> rfl

theorem blankFrom_of_absent {inside : Bool} {text : List Char}
    (h : ¬ ending inside <:+: text) : blankFrom inside text = text.flatMap (kept inside) := by
  induction text with
  | nil => cases inside <;> rfl
  | cons c cs ih =>
      rw [List.infix_cons_iff, not_or] at h
      rw [blankFrom_cons h.1, ih h.2, List.flatMap_cons]

theorem blankFrom_of_breakText? {inside : Bool} {text before rest : List Char}
    (h : breakText? (ending inside) text = some (before, rest)) :
    blankFrom inside text =
      before.flatMap (kept inside) ++ (ending inside).flatMap blanks ++
        blankFrom (!inside) rest := by
  obtain ⟨tail, rfl, htail, hfirst⟩ := exists_of_breakBefore? h
  obtain rfl := behind?_eq_some_iff.1 htail
  clear h
  induction before with
  | nil => exact blankFrom_ending inside rest
  | cons c cs ih =>
      have hhere := behind?_eq_none_iff.1 (hfirst [] (c :: cs) rfl (List.cons_ne_nil c cs))
      have hrest := ih fun front back hsplit => hfirst (c :: front) back (by rw [hsplit]; rfl)
      rw [List.cons_append] at hhere ⊢
      rw [blankFrom_cons hhere, hrest, List.flatMap_cons]
      simp only [List.append_assoc]

theorem Commented.text_eq {text last : List Char} {parts : List (List Char × List Char)}
    (h : Commented text parts last) : text = parts.flatMap (fun p => p.1 ++ p.2) ++ last := by
  induction h with
  | last h => rfl
  | @unclosed text before inside hopen hclose =>
      rw [← text_of_breakText? hopen]
      simp
  | @closed text before inside body after last parts hopen hclose _ ih =>
      rw [← text_of_breakText? hopen, ← text_of_breakText? hclose, List.flatMap_cons,
        List.append_assoc _ _ last, ← ih]
      simp only [List.append_assoc]

/-- Blanking is blanking the comments. -/
theorem Commented.blankComments_eq {text last : List Char} {parts : List (List Char × List Char)}
    (h : Commented text parts last) :
    blankComments text = parts.flatMap (fun p => p.1 ++ p.2.flatMap blanks) ++ last := by
  have hkept (cs : List Char) : cs.flatMap (kept false) = cs := List.flatMap_singleton' cs
  have hblanks (cs : List Char) : cs.flatMap (kept true) = cs.flatMap blanks := rfl
  rw [blankComments]
  induction h with
  | last h =>
      have hnone : ¬ ending false <:+: _ := h
      exact (blankFrom_of_absent hnone).trans (hkept _)
  | @unclosed text before inside hopen hclose =>
      have hfirst : blankFrom false text =
          before.flatMap (kept false) ++ opening.flatMap blanks ++ blankFrom true inside :=
        blankFrom_of_breakText? hopen
      have hrest : blankFrom true inside = inside.flatMap (kept true) :=
        blankFrom_of_absent hclose
      rw [hfirst, hrest, hkept, hblanks]
      simp
  | @closed text before inside body after last parts hopen hclose _ ih =>
      have hfirst : blankFrom false text =
          before.flatMap (kept false) ++ opening.flatMap blanks ++ blankFrom true inside :=
        blankFrom_of_breakText? hopen
      have hrest : blankFrom true inside =
          body.flatMap (kept true) ++ closing.flatMap blanks ++ blankFrom false after :=
        blankFrom_of_breakText? hclose
      rw [hfirst, hrest, hkept, hblanks, ih]
      simp

/-! ## bytes -/

theorem blankByte_blankByte (b : UInt8) : blankByte (blankByte b) = blankByte b := by
  unfold blankByte
  split <;> simp_all

/-- The byte of a newline is the newline. -/
theorem eq_newline_of_mem {c : Char} (h : '\n'.toUInt8 ∈ String.utf8EncodeChar c) : c = '\n' := by
  obtain ⟨i, hi, hget⟩ := List.mem_iff_getElem.1 h
  have hprefix : bytes ['\n'] <+: (bytes [c]).drop i := by
    rw [bytes_cons c, bytes_nil, List.append_nil, List.drop_eq_getElem_cons hi, hget]
    exact List.prefix_append ['\n'.toUInt8] _
  obtain ⟨before, after, hc, -⟩ := (prefix_drop_bytes_iff (List.cons_ne_nil _ _)).1 hprefix
  have hmem : '\n' ∈ [c] := by
    rw [hc]
    simp
  exact (List.mem_singleton.1 hmem).symm

theorem bytes_replicate_space (n : Nat) :
    bytes (List.replicate n ' ') = List.replicate n ' '.toUInt8 := by
  induction n with
  | zero => rfl
  | succ n ih =>
      rw [List.replicate_succ, List.replicate_succ, bytes_cons, ih]
      rfl

/-- The bytes of a character of a comment are blanked as the character is. -/
theorem map_blankByte (c : Char) :
    (String.utf8EncodeChar c).map blankByte = bytes (blanks c) := by
  rw [blanks]
  split
  · rename_i hc
    subst hc
    rfl
  · rename_i hc
    rw [bytes_replicate_space, List.eq_replicate_iff, List.length_map, String.length_utf8EncodeChar]
    refine ⟨rfl, fun b hb => ?_⟩
    obtain ⟨d, hd, rfl⟩ := List.mem_map.1 hb
    refine if_neg ?_
    rintro rfl
    exact hc (eq_newline_of_mem hd)

theorem map_blankByte_bytes (cs : List Char) :
    (bytes cs).map blankByte = bytes (cs.flatMap blanks) := by
  induction cs with
  | nil => rfl
  | cons c cs ih =>
      rw [bytes_cons, List.map_append, map_blankByte, ih, List.flatMap_cons, bytes_append]

theorem getElem?_blankBetween (lo hi : Nat) (bs : List UInt8) (i : Nat) :
    (blankBetween lo hi bs)[i]? =
      bs[i]?.map fun b => if lo ≤ i ∧ i < hi then blankByte b else b := List.getElem?_mapIdx

/-- The bytes between two offsets are blanked. -/
theorem blankBetween_append (xs ys zs : List UInt8) :
    blankBetween xs.length (xs.length + ys.length) (xs ++ ys ++ zs) =
      xs ++ ys.map blankByte ++ zs := by
  refine List.ext_getElem? fun i => ?_
  rw [getElem?_blankBetween]
  grind

/-- Comment after comment, the bytes of a text become those of the text with blanked comments. -/
theorem foldl_blankBetween (parts : List (List Char × List Char)) (last : List Char)
    (front : List UInt8) :
    (placesFrom front.length parts).foldl (fun bs c => blankBetween c.1 c.2 bs)
        (front ++ bytes (parts.flatMap (fun p => p.1 ++ p.2) ++ last)) =
      front ++ bytes (parts.flatMap (fun p => p.1 ++ p.2.flatMap blanks) ++ last) := by
  induction parts generalizing front with
  | nil => rfl
  | cons part parts ih =>
      obtain ⟨before, comment⟩ := part
      have hblanked := blankBetween_append (front ++ bytes before) (bytes comment)
        (bytes (parts.flatMap (fun p => p.1 ++ p.2) ++ last))
      have hrest := ih (front ++ bytes before ++ (bytes comment).map blankByte)
      simp only [List.length_append, List.length_map, length_bytes] at hblanked hrest
      rw [placesFrom, List.foldl_cons]
      simp only [List.flatMap_cons, bytes_append, List.append_assoc, ← map_blankByte_bytes] at *
      rw [hblanked, hrest]

/-! ## no comment is left -/

theorem exists_of_prefix_blankFrom {m : Char} {ms text : List Char} (hm : m ≠ ' ')
    (h : m :: ms <+: blankFrom false text) :
    ∃ rest, text = m :: rest ∧ ms <+: blankFrom false rest := by
  unfold blankFrom at h
  split at h
  · exact absurd h (by simp)
  · exact absurd (List.cons_prefix_cons.1 h).1 hm
  · obtain ⟨rfl, hrest⟩ := List.cons_prefix_cons.1 h
    exact ⟨_, rfl, hrest⟩
  · contradiction
  · contradiction

theorem infix_of_not_mem {m : Char} {ms front back : List Char} (hm : m ∉ front)
    (h : m :: ms <:+: front ++ back) : m :: ms <:+: back := by
  induction front with
  | nil => exact h
  | cons c front ih =>
      rw [List.mem_cons, not_or] at hm
      rw [List.cons_append, List.infix_cons_iff] at h
      rcases h with h | h
      · exact absurd (List.cons_prefix_cons.1 h).1 hm.1
      · exact ih hm.2 h

theorem not_infix_blankFrom (inside : Bool) (text : List Char) :
    ¬ opening <:+: blankFrom inside text := by
  fun_induction blankFrom inside text with
  | case1 => decide
  | case2 cs ih =>
      have hspaces : '<' ∉ [' ', ' ', ' ', ' '] := by decide
      exact mt (infix_of_not_mem hspaces) ih
  | case3 c cs hno ih =>
      rw [List.infix_cons_iff, not_or]
      refine ⟨fun h => ?_, ih⟩
      obtain ⟨hc, h⟩ := List.cons_prefix_cons.1 h
      obtain ⟨bang, rfl, hbang⟩ := exists_of_prefix_blankFrom (by decide) h
      obtain ⟨dash, rfl, hdash⟩ := exists_of_prefix_blankFrom (by decide) hbang
      obtain ⟨rest, rfl, -⟩ := exists_of_prefix_blankFrom (by decide) hdash
      exact hno rest hc.symm rfl
  | case4 cs ih =>
      have hspaces : '<' ∉ [' ', ' ', ' '] := by decide
      exact mt (infix_of_not_mem hspaces) ih
  | case5 c cs _ ih =>
      refine mt (infix_of_not_mem fun h => ?_) ih
      rcases mem_blanks h with h | h
      · exact absurd h (by decide)
      · exact absurd h (by decide)

/-! ## lines -/

theorem startsBehind_blankFrom (o : Nat) (inside : Bool) (text : List Char) :
    startsBehind o (blankFrom inside text) = startsBehind o text := by
  fun_induction blankFrom inside text generalizing o with
  | case1 => rfl
  | case2 cs ih => exact ih _
  | case3 c cs _ ih => rw [startsBehind, startsBehind, ih]
  | case4 cs ih => exact ih _
  | case5 c cs _ ih =>
      rw [startsBehind_append, byteLength_blanks, ih, startsBehind, blanks]
      split
      · rename_i hc
        rw [hc]
        rfl
      · have hspaces : '\n' ∉ List.replicate c.utf8Size ' ' := fun h =>
          absurd (List.eq_of_mem_replicate h) (by decide)
        rw [startsBehind_of_not_mem hspaces, List.nil_append]

/-! ## exact blanking -/

/-- The bytes behind the run of the cursor: those in comments are blanked. -/
theorem getElem?_foldl_blankBetween (comments : List (Nat × Nat)) (bs : List UInt8) (i : Nat) :
    (Inside comments i →
      (comments.foldl (fun bs c => blankBetween c.1 c.2 bs) bs)[i]? = bs[i]?.map blankByte) ∧
    (¬ Inside comments i →
      (comments.foldl (fun bs c => blankBetween c.1 c.2 bs) bs)[i]? = bs[i]?) := by
  induction comments generalizing bs with
  | nil =>
      refine ⟨?_, fun _ => rfl⟩
      rintro ⟨c, hc, -⟩
      contradiction
  | cons c comments ih =>
      have hinside : Inside (c :: comments) i ↔ (c.1 ≤ i ∧ i < c.2) ∨ Inside comments i := by
        simp only [Inside, List.mem_cons, exists_eq_or_imp]
      obtain ⟨hin, hout⟩ := ih (blankBetween c.1 c.2 bs)
      rw [getElem?_blankBetween] at hin hout
      rw [hinside, List.foldl_cons]
      by_cases hrest : Inside comments i
      · refine ⟨fun _ => ?_, fun h => absurd (.inr hrest) h⟩
        rw [hin hrest, Option.map_map]
        congr 1
        funext b
        rw [Function.comp_apply]
        split
        · exact blankByte_blankByte b
        · rfl
      · rw [hout hrest]
        by_cases hhere : c.1 ≤ i ∧ i < c.2
        · simp [hhere]
        · simp [hhere, hrest]

/-- What blanking does to a text. -/
structure ExactBlanking (text : List Char) : Prop where
  /-- The cursor always cuts between characters, and the bytes that it leaves are a text: that with
  its comments blanked. -/
  inPlace : ∃ bs, overwrite? text 0 (bytes text) = some bs ∧
    String.fromUTF8? bs.toByteArray = some (String.ofList (blankComments text))
  /-- There are as many bytes as before. -/
  length : (bytes (blankComments text)).length = (bytes text).length
  /-- A byte in a comment becomes a space, except that a newline stays; every other byte is as it
  was. -/
  each : ∃ comments, CommentsFrom (bytes text) 0 comments ∧ ∀ i,
    (Inside comments i → (bytes (blankComments text))[i]? = (bytes text)[i]?.map blankByte) ∧
    (¬ Inside comments i → (bytes (blankComments text))[i]? = (bytes text)[i]?)
  /-- No comment is left. -/
  noOpening : ¬ opening <:+: blankComments text
  /-- Every line starts where it did. -/
  starts : (LineIndex.ofText (blankComments text)).starts = (LineIndex.ofText text).starts
  /-- Blanking again changes nothing. -/
  again : blankComments (blankComments text) = blankComments text

/-- **Blanking is exact.** -/
theorem exactBlanking (text : List Char) : ExactBlanking text := by
  obtain ⟨parts, last, hparts⟩ := exists_commented text
  have hrun := hparts.overwrite?_eq [] (bytes text)
  have hcomments := hparts.commentsFrom []
  have hfold := foldl_blankBetween parts last []
  simp only [List.nil_append, List.length_nil, ← hparts.text_eq, ← hparts.blankComments_eq] at hfold
  have hnone : ¬ opening <:+: blankComments text := not_infix_blankFrom false text
  have hstarts : startsBehind 0 (blankComments text) = startsBehind 0 text :=
    startsBehind_blankFrom 0 false text
  refine ⟨⟨_, hrun, ?_⟩, ?_, ⟨_, hcomments, fun i => ?_⟩, hnone, ?_, ?_⟩
  · rw [byteLength_nil, hfold, fromUTF8?_bytes]
  · rw [length_bytes, length_bytes, byteLength_blankComments]
  · rw [byteLength_nil, ← hfold]
    exact getElem?_foldl_blankBetween _ _ i
  · rw [LineIndex.ofText, LineIndex.ofText, hstarts]
  · have hkept (cs : List Char) : cs.flatMap (kept false) = cs := List.flatMap_singleton' cs
    have hnone : ¬ ending false <:+: blankComments text := hnone
    rw [blankComments, blankFrom_of_absent hnone, hkept]

end LocaleAudit.Component
