import LocaleAudit.Proofs.Key.Diff

/-!
# LocaleAudit.Proofs.Key.Path

Keys behind a name and a dot.  A name without dots is told from what is behind it by the first dot,
so that keys under different names of that kind have nothing to do with each other.

* `splitFirst?_eq_some_iff` — splitting at the first dot undoes `under`;
* `overlaps_under_iff` — keys under names overlap exactly if the names are the same and what is
  behind them overlaps.
-/

namespace LocaleAudit.Key

/-! ## keys under a name -/

theorem toList_under (name key : String) :
    (under name key).toList = name.toList ++ '.' :: key.toList := by
  rw [under, String.toList_append, String.toList_append, List.append_assoc]
  rfl

theorem under_assoc (a b c : String) : under (under a b) c = under a (under b c) := by
  simp only [under, String.append_assoc]

/-- What stands in front of the first dot has no dots. -/
theorem splitFirst?_eq_some_iff {cs name rest : List Char} :
    splitFirst? cs = some (name, rest) ↔ cs = name ++ '.' :: rest ∧ '.' ∉ name := by
  induction cs generalizing name with
  | nil => simp [splitFirst?]
  | cons c cs ih =>
      rw [splitFirst?]
      split
      · rename_i hdot
        subst hdot
        cases name with
        | nil => simp
        | cons c name =>
            simp only [Option.some.injEq, Prod.mk.injEq, reduceCtorEq, false_and, List.cons_append,
              List.cons.injEq, List.mem_cons, not_or, false_iff]
            rintro ⟨⟨rfl, -⟩, hne, -⟩
            exact hne rfl
      · rename_i hdot
        cases name with
        | nil => simp [hdot]
        | cons d name =>
            rw [Option.map_eq_some_iff]
            constructor
            · rintro ⟨⟨a, b⟩, hsplit, heq⟩
              obtain ⟨⟨rfl, rfl⟩, rfl⟩ : (c = d ∧ a = name) ∧ b = rest := by simpa using heq
              obtain ⟨rfl, hname⟩ := ih.1 hsplit
              exact ⟨rfl, by simp [hname, Ne.symm hdot]⟩
            · rintro ⟨heq, hname⟩
              obtain ⟨rfl, rfl⟩ : c = d ∧ cs = name ++ '.' :: rest := by simpa using heq
              exact ⟨(name, rest), ih.2 ⟨rfl, fun h => hname (List.mem_cons_of_mem _ h)⟩, rfl⟩

/-- A name without dots and what is behind it can be told apart. -/
theorem under_inj {l l' k k' : String} (hl : '.' ∉ l.toList) (hl' : '.' ∉ l'.toList) :
    under l k = under l' k' ↔ l = l' ∧ k = k' := by
  constructor
  · intro h
    have hsplit := splitFirst?_eq_some_iff.2 ⟨toList_under l k, hl⟩
    rw [h, splitFirst?_eq_some_iff.2 ⟨toList_under l' k', hl'⟩] at hsplit
    simpa [String.toList_inj, eq_comm] using hsplit
  · rintro ⟨rfl, rfl⟩
    rfl

/-- A name without dots is no key under another name. -/
theorem ne_under {name l k : String} (h : '.' ∉ name.toList) : name ≠ under l k := by
  rintro rfl
  exact h (by simp [toList_under])

/-! ## overlap -/

/-- Two keys overlap: they are the same, or one of them is an ancestor of the other. -/
def Overlaps (p q : String) : Prop := p = q ∨ Related p q

theorem Overlaps.symm {p q : String} (h : Overlaps p q) : Overlaps q p :=
  h.imp Eq.symm Or.symm

theorem forall_not_overlaps_iff {keys : KeySet} {p : String} :
    (∀ k ∈ keys, ¬ Overlaps k p) ↔ p ∉ keys ∧ ∀ k ∈ keys, ¬ Related k p := by
  constructor
  · exact fun h => ⟨fun hp => h p hp (.inl rfl), fun k hk hrelated => h k hk (.inr hrelated)⟩
  · rintro ⟨hp, hrelated⟩ k hk (rfl | h)
    · exact hp hk
    · exact hrelated k hk h

/-- A key is added if it is there and overlaps with nothing that is expected. -/
theorem added_mem_diff_iff {E A : KeySet} {p : String} :
    .added p ∈ diff E A ↔ p ∈ A ∧ ∀ e ∈ E, ¬ Overlaps e p := by
  rw [added_mem_diff, forall_not_overlaps_iff]

/-- A key is removed if it is expected and overlaps with nothing that is there. -/
theorem removed_mem_diff_iff {E A : KeySet} {p : String} :
    .removed p ∈ diff E A ↔ p ∈ E ∧ ∀ a ∈ A, ¬ Overlaps a p := by
  rw [removed_mem_diff, forall_not_overlaps_iff]

theorem mem_added_diff_iff {E A : KeySet} {p : String} :
    p ∈ (diff E A).filterMap Change.added? ↔ p ∈ A ∧ ∀ e ∈ E, ¬ Overlaps e p := by
  simp only [List.mem_filterMap, Change.added?_eq_some_iff, exists_eq_right, added_mem_diff_iff]

theorem mem_removed_diff_iff {E A : KeySet} {p : String} :
    p ∈ (diff E A).filterMap Change.removed? ↔ p ∈ E ∧ ∀ a ∈ A, ¬ Overlaps a p := by
  simp only [List.mem_filterMap, Change.removed?_eq_some_iff, exists_eq_right, removed_mem_diff_iff]

/-- The keys below a key are those under it. -/
theorem isAncestor_iff {p q : String} : IsAncestor p q ↔ ∃ r, q = under p r := by
  constructor
  · rintro ⟨rest, hrest⟩
    refine ⟨String.ofList rest, String.toList_inj.1 ?_⟩
    rw [toList_under, String.toList_ofList, ← hrest, List.append_assoc]
    rfl
  · rintro ⟨r, rfl⟩
    exact ⟨r.toList, by simp [toList_under]⟩

theorem IsAncestor.trans {p q r : String} (hpq : IsAncestor p q) (hqr : IsAncestor q r) :
    IsAncestor p r := by
  obtain ⟨s, rfl⟩ := isAncestor_iff.1 hpq
  obtain ⟨t, rfl⟩ := isAncestor_iff.1 hqr
  exact isAncestor_iff.2 ⟨under s t, under_assoc p s t⟩

/-- The ancestors of a key are in one line. -/
theorem IsAncestor.overlaps {p q r : String} (hp : IsAncestor p r) (hq : IsAncestor q r) :
    Overlaps p q := by
  have eq_or_above {a b : String} (h : a.toList ++ ['.'] <+: b.toList ++ ['.']) :
      a = b ∨ IsAncestor a b := by
    rcases List.prefix_concat_iff.1 h with heq | hbelow
    · exact .inl (String.toList_inj.1 (List.append_cancel_right heq))
    · exact .inr hbelow
  rcases List.prefix_or_prefix_of_prefix hp hq with h | h
  · exact (eq_or_above h).imp_right .inl
  · exact Overlaps.symm ((eq_or_above h).imp_right .inl)

theorem isAncestor_under_iff {l l' k k' : String} (hl : '.' ∉ l.toList) (hl' : '.' ∉ l'.toList) :
    IsAncestor (under l k) (under l' k') ↔ l = l' ∧ IsAncestor k k' := by
  simp only [isAncestor_iff, under_assoc, under_inj hl' hl, exists_and_left, eq_comm (a := l')]

/-- **Keys under names without dots** overlap exactly if the names are the same and what is behind
them overlaps. -/
theorem overlaps_under_iff {l l' k k' : String} (hl : '.' ∉ l.toList) (hl' : '.' ∉ l'.toList) :
    Overlaps (under l k) (under l' k') ↔ l = l' ∧ Overlaps k k' := by
  simp only [Overlaps, Related, under_inj hl hl', isAncestor_under_iff hl hl',
    isAncestor_under_iff hl' hl]
  tauto

end LocaleAudit.Key
