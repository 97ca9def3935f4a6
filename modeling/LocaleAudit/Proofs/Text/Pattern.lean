import LocaleAudit.Proofs.Text.Slice

/-!
# LocaleAudit.Proofs.Text.Pattern

Everything that a pattern finds in a slice.  A pattern is tried at every place in turn; where it
reads something the search goes on behind that, and so what is read must not be empty.

* `Pattern.all_of_some` — the search goes on behind what is read;
* `Pattern.all_of_took` — a text in which nothing can be read is passed over;
* `flatMap_eq_of_lt` — texts in a row, cut at one of them.
-/

namespace LocaleAudit.Text

open Slice

/-- Texts in a row are those in front of one of them, that one, and those behind it. -/
theorem flatMap_eq_of_lt {α : Type} (f : α → List Char) {as : List α} {i : Nat}
    (hi : i < as.length) :
    as.flatMap f = (as.take i).flatMap f ++ f as[i] ++ (as.drop (i + 1)).flatMap f := by
  rw [List.append_assoc, ← List.flatMap_cons, ← List.drop_eq_getElem_cons hi, ← List.flatMap_append,
    List.take_append_drop]

/-- A pattern reads something at the start of a slice and leaves less of it. -/
structure Pattern (α : Type) where
  read? : Slice → Option (α × Slice)
  shorter {s rest : Slice} {a : α} : read? s = some (a, rest) → rest.text.length < s.text.length

namespace Pattern

variable {α β : Type}

/-- Everything that a pattern finds in a slice, in order. -/
def all (p : Pattern α) (s : Slice) : List α :=
  if _hs : s.text = [] then []
  else match _h : p.read? s with
    | some (a, rest) => a :: p.all rest
    | none => p.all (s.drop 1)
termination_by s.text.length
decreasing_by
  · exact p.shorter _h
  · have := List.length_pos_iff.2 _hs
    simp only [Slice.drop, List.length_drop]
    omega

variable {p : Pattern α} {s rest : Slice}

theorem all_nil (h : s.text = []) : p.all s = [] := by
  rw [all, dif_pos h]

/-- The search goes on behind what is read. -/
theorem all_of_some {a : α} (h : p.read? s = some (a, rest)) : p.all s = a :: p.all rest := by
  have hne : s.text ≠ [] := by
    intro hnil
    have hlt := p.shorter h
    rw [hnil] at hlt
    exact Nat.not_lt_zero _ hlt
  rw [all, dif_neg hne]
  split
  · rename_i h'
    obtain ⟨rfl, rfl⟩ := Prod.mk.inj (Option.some.inj (h'.symm.trans h))
    rfl
  · rename_i h'
    rw [h] at h'
    contradiction

theorem all_of_none (hne : s.text ≠ []) (h : p.read? s = none) : p.all s = p.all (s.drop 1) := by
  rw [all, dif_neg hne]
  split
  · rename_i h'
    rw [h] at h'
    contradiction
  · rfl

/-- **A text is passed over** if nothing can be read at any place in it. -/
theorem all_of_took {cs : List Char} (h : Took s cs rest)
    (hnone : ∀ front back t, cs = front ++ back → back ≠ [] → Took t back rest →
      p.read? t = none) : p.all s = p.all rest := by
  induction cs generalizing s with
  | nil => rw [(took_nil s).eq h]
  | cons c cs ih =>
      have hne : s.text ≠ [] := by
        rw [h.text]
        exact List.cons_ne_nil c _
      rw [all_of_none hne (hnone [] (c :: cs) s rfl (List.cons_ne_nil c cs) h)]
      refine ih h.behind fun front back t hsplit => hnone (c :: front) back t ?_
      rw [hsplit, List.cons_append]

/-- Patterns that read alike find alike. -/
theorem all_map {q : Pattern β} {f : α → β}
    (h : ∀ t, q.read? t = (p.read? t).map fun found => (f found.1, found.2)) (s : Slice) :
    q.all s = (p.all s).map f := by
  fun_induction all p s with
  | case1 s hs => exact all_nil hs
  | case2 s _ a rest ha ih =>
      have hread : q.read? s = some (f a, rest) := by rw [h, ha, Option.map_some]
      rw [all_of_some hread, ih, List.map_cons]
  | case3 s hs hnone ih =>
      have hread : q.read? s = none := by rw [h, hnone, Option.map_none]
      rw [all_of_none hs hread, ih]

end Pattern

end LocaleAudit.Text
