import LocaleAudit.Proofs.Path
import Mathlib.Data.List.DropRight

/-!
# LocaleAudit.Proofs.Path.Parent

The parent of a path, which is what is written in front of its last component.  Pieces at the end
that mean nothing are left out first, and then the last one that means something.

* `components_of_parent?` — the parent has the components of the path but the last one;
* `components_of_parent?_eq_none` — which paths have no parent.
-/

namespace LocaleAudit.Path

open Text

/-! ## pieces at the end -/

theorem withoutEnd_eq (ps : List (List Char)) :
    withoutEnd ps = ps.rdropWhile fun piece => piece = [] || piece = ['.'] := rfl

theorem isPrefix_withoutEnd (ps : List (List Char)) : withoutEnd ps <+: ps :=
  List.rdropWhile_prefix _ ps

theorem withoutEnd_concat (ps : List (List Char)) (piece : List Char) :
    withoutEnd (ps ++ [piece]) = if IsNeedless piece then withoutEnd ps else ps ++ [piece] := by
  rw [withoutEnd_eq, withoutEnd_eq, List.rdropWhile_concat]
  simp [IsNeedless]

theorem flatMap_withoutEnd (ps : List (List Char)) :
    (withoutEnd ps).flatMap Component.ofPiece = ps.flatMap Component.ofPiece := by
  induction ps using List.reverseRecOn with
  | nil => rfl
  | append_singleton ps piece ih =>
      rw [withoutEnd_concat]
      split
      · rename_i hneedless
        rw [ih, List.flatMap_append, List.flatMap_singleton]
        rcases hneedless with rfl | rfl <;> exact (List.append_nil _).symm
      · rfl

/-- What is left ends in a piece that means something. -/
theorem withoutEnd_cases (ps : List (List Char)) :
    withoutEnd ps = [] ∨
      ∃ before last, withoutEnd ps = before ++ [last] ∧ ¬ IsNeedless last := by
  induction ps using List.reverseRecOn with
  | nil => exact .inl rfl
  | append_singleton ps piece ih =>
      rw [withoutEnd_concat]
      split
      · exact ih
      · rename_i hneeded
        exact .inr ⟨ps, piece, rfl, hneeded⟩

theorem exists_ofPiece_eq {piece : List Char} (h : ¬ IsNeedless piece) :
    ∃ c, Component.ofPiece piece = [c] := by
  rw [Component.ofPiece.eq_def]
  split
  · exact absurd (.inl rfl) h
  · exact absurd (.inr rfl) h
  · exact ⟨_, rfl⟩
  · exact ⟨_, rfl⟩

/-- The pieces behind the first one count for what they mean. -/
theorem ofPieces_congr {first : List Char} {ps qs : List (List Char)}
    (hmeaning : ps.flatMap Component.ofPiece = qs.flatMap Component.ofPiece)
    (hroot : first = [] → (ps = [] ↔ qs = [])) :
    ofPieces (first :: ps) = ofPieces (first :: qs) := by
  have hiff : (first = [] ∧ ps ≠ []) ↔ (first = [] ∧ qs ≠ []) :=
    and_congr_right fun hfirst => not_congr (hroot hfirst)
  rw [ofPieces, ofPieces, hmeaning]
  simp only [hiff]

/-- The components of texts with slashes between them. -/
theorem components_ofList_intercalate {ps : List (List Char)} (hne : ps ≠ [])
    (h : ∀ piece ∈ ps, '/' ∉ piece) :
    components (String.ofList (List.intercalate ['/'] ps)) = ofPieces ps := by
  rw [components_eq, String.toList_ofList, pieces_intercalate hne h]

section parent

variable {path up : String} {first : List Char} {rest before : List (List Char)} {last : List Char}
  (hpieces : pieces '/' path.toList = first :: rest)
include hpieces

/-- The parent of a path of one piece. -/
theorem parent?_of_nil (hend : withoutEnd rest = []) :
    parent? path = if first = [] then none else some "" := by
  rw [parent?, hpieces]
  dsimp only
  rw [hend]

/-- The parent of a path of more pieces. -/
theorem parent?_of_concat (hend : withoutEnd rest = before ++ [last]) :
    parent? path = some (if first = [] ∧ withoutEnd before = [] then "/"
      else String.ofList (List.intercalate ['/'] (first :: withoutEnd before))) := by
  rw [parent?, hpieces]
  dsimp only
  rw [hend]
  split
  · rename_i hnil
    simp at hnil
  · rw [List.dropLast_concat]
    split
    · rename_i hnil
      rw [if_pos ⟨rfl, hnil⟩]
    · rename_i hroot
      rw [if_neg fun h => hroot h.1 h.2]

omit hpieces in
/-- A path of one piece has no more components than the first. -/
theorem ofPieces_of_nil (hend : withoutEnd rest = []) (hfirst : first ≠ []) :
    ∃ c, ofPieces (first :: rest) = [c] := by
  have hmeaning : rest.flatMap Component.ofPiece = [] := by
    rw [← flatMap_withoutEnd, hend, List.flatMap_nil]
  rw [ofPieces, hmeaning, if_neg (fun hroot => hfirst hroot.1), List.append_nil]
  split
  · exact ⟨.current, rfl⟩
  · rename_i hcurrent
    exact exists_ofPiece_eq (not_or.2 ⟨hfirst, hcurrent⟩)

omit hpieces in
/-- The last piece that means something is the last component. -/
theorem ofPieces_of_concat (hend : withoutEnd rest = before ++ [last]) (hlast : ¬ IsNeedless last) :
    ∃ c, ofPieces (first :: rest) = ofPieces (first :: (before ++ [[]])) ++ [c] := by
  have hrest : before ++ [last] <+: rest := hend ▸ isPrefix_withoutEnd rest
  have hsame : ofPieces (first :: rest) = ofPieces (first :: (before ++ [last])) := by
    refine ofPieces_congr ?_ fun _ => iff_of_false (hrest.ne_nil (by simp)) (by simp)
    rw [← flatMap_withoutEnd, hend]
  obtain ⟨c, hc⟩ := exists_ofPiece_eq hlast
  rw [hsame, ← List.cons_append, ofPieces_concat (List.cons_ne_nil _ _), hc]
  exact ⟨c, rfl⟩

/-- The components of the text in front of the last piece. -/
theorem components_before (hend : withoutEnd rest = before ++ [last]) :
    components (if first = [] ∧ withoutEnd before = [] then "/"
      else String.ofList (List.intercalate ['/'] (first :: withoutEnd before))) =
      ofPieces (first :: (before ++ [[]])) := by
  have hmeaning : (withoutEnd before).flatMap Component.ofPiece =
      (before ++ [[]]).flatMap Component.ofPiece := by
    rw [flatMap_withoutEnd, List.flatMap_append]
    exact (List.append_nil _).symm
  split
  · rename_i hroot
    rw [hroot.2] at hmeaning
    rw [ofPieces, if_pos ⟨hroot.1, by simp⟩, ← hmeaning]
    rfl
  · rename_i hroot
    have hbefore : withoutEnd before <+: rest :=
      (isPrefix_withoutEnd before).trans
        ((List.prefix_append before [last]).trans (hend ▸ isPrefix_withoutEnd rest))
    rw [components_ofList_intercalate (List.cons_ne_nil _ _)]
    · refine ofPieces_congr hmeaning fun hfirst => ?_
      exact iff_of_false (fun hnil => hroot ⟨hfirst, hnil⟩) (by simp)
    · intro piece hpiece hslash
      have hin : piece ∈ pieces '/' path.toList :=
        hpieces ▸ List.cons_subset_cons first hbefore.subset hpiece
      exact (mem_of_mem_pieces hin hslash).2 rfl

end parent

/-- **The parent of a path** has its components but the last one. -/
theorem components_of_parent? {path up : String} (h : parent? path = some up) :
    ∃ c, components path = components up ++ [c] := by
  rw [components_eq path]
  cases hpieces : pieces '/' path.toList with
  | nil => exact absurd hpieces (pieces_ne_nil '/' _)
  | cons first rest =>
      rcases withoutEnd_cases rest with hend | ⟨before, last, hend, hlast⟩
      · rw [parent?_of_nil hpieces hend] at h
        split at h
        · contradiction
        · rename_i hfirst
          obtain rfl := Option.some.inj h
          exact ofPieces_of_nil hend hfirst
      · rw [parent?_of_concat hpieces hend] at h
        obtain rfl := Option.some.inj h
        rw [components_before hpieces hend]
        exact ofPieces_of_concat hend hlast

/-- Only what has no components, or is the root of the file system, has no parent. -/
theorem components_of_parent?_eq_none {path : String} (h : parent? path = none) :
    components path = [] ∨ components path = [.root] := by
  rw [components_eq path]
  cases hpieces : pieces '/' path.toList with
  | nil => exact absurd hpieces (pieces_ne_nil '/' _)
  | cons first rest =>
      rcases withoutEnd_cases rest with hend | ⟨before, last, hend, -⟩
      · rw [parent?_of_nil hpieces hend] at h
        split at h
        · rename_i hfirst
          have hmeaning : rest.flatMap Component.ofPiece = [] := by
            rw [← flatMap_withoutEnd, hend, List.flatMap_nil]
          rw [ofPieces, hmeaning, hfirst, List.append_nil]
          split
          · exact .inr rfl
          · exact .inl rfl
        · contradiction
      · rw [parent?_of_concat hpieces hend] at h
        contradiction

end LocaleAudit.Path
