import LocaleAudit.Proofs.Path.Order

/-!
# LocaleAudit.Proofs.FileTree.Descendants

What is below a place: everything to which names lead from there, in the order of the paths.

* `exists_reached`, `exists_mem_of_at?` — the places at and below a place;
* `pairwise_descendants` — their order.
-/

namespace LocaleAudit

open LocaleAudit.Path

namespace Place

open Entry

/-! ## names that lead to places -/

/-- Names lead from one place to another. -/
structure Reached (p : Place) (names : List String) (q : Place) : Prop where
  path : q.path = p.path ++ names.map .name
  entry : p.entry.at? names = some q.entry
  proper : ∀ n ∈ names, ProperName n

theorem Reached.self (p : Place) : Reached p [] p where
  path := (List.append_nil _).symm
  entry := rfl
  proper := List.forall_mem_nil _

theorem Reached.below {p q : Place} {name : String} {e : Entry} {names : List String}
    (hproper : p.entry.Proper) (hmem : (name, e) ∈ p.entry.entries)
    (h : Reached (p.below name e) names q) : Reached p (name :: names) q where
  path := by
    rw [h.path, List.map_cons]
    simp [Place.below]
  entry := by
    rw [at?_cons, hproper.child?_of_mem hmem]
    exact h.entry
  proper := List.forall_mem_cons.2 ⟨hproper.properName (hproper.child?_of_mem hmem), h.proper⟩

theorem mem_entries_of_child? {t e : Entry} {name : String} (h : t.child? name = some e) :
    (name, e) ∈ t.entries := by
  obtain ⟨es, rfl⟩ := exists_directory_of_child? h
  exact mem_of_child? h

theorem proper_of_mem_entries {t : Entry} (h : t.Proper) {m : String × Entry}
    (hm : m ∈ t.entries) : m.2.Proper :=
  h.child? (h.child?_of_mem hm)

theorem pairwise_entries {t : Entry} (h : t.Proper) : t.entries.Pairwise fun m n => m.1 < n.1 := by
  cases h with
  | file => exact .nil
  | directory ascending => exact ascending

/-- What is below a place is at or below one of the entries there. -/
theorem mem_descendants_iff {p q : Place} :
    q ∈ p.descendants ↔
      ∃ m ∈ p.entry.entries, q ∈ p.below m.1 m.2 :: (p.below m.1 m.2).descendants := by
  rw [descendants_eq, children, List.flatMap_map, List.mem_flatMap]

/-- **What is at or below a place** is what names lead to. -/
theorem exists_reached {p q : Place} (hproper : p.entry.Proper) (h : q ∈ p :: p.descendants) :
    ∃ names, Reached p names q := by
  induction he : p.entry using Entry.member_induction generalizing p with
  | step e ih =>
      rcases List.mem_cons.1 h with rfl | h
      · exact ⟨[], .self _⟩
      · obtain ⟨m, hm, hq⟩ := mem_descendants_iff.1 h
        obtain ⟨names, hreached⟩ :=
          ih m (he ▸ hm) (p := p.below m.1 m.2) (proper_of_mem_entries hproper hm) hq rfl
        exact ⟨m.1 :: names, hreached.below hproper hm⟩

/-- What is at or below an entry of a directory is reached by its name first. -/
theorem exists_reached_below {p q : Place} (hproper : p.entry.Proper) {m : String × Entry}
    (hm : m ∈ p.entry.entries) (h : q ∈ p.below m.1 m.2 :: (p.below m.1 m.2).descendants) :
    ∃ names, Reached p (m.1 :: names) q := by
  obtain ⟨names, hreached⟩ :=
    exists_reached (p := p.below m.1 m.2) (proper_of_mem_entries hproper hm) h
  exact ⟨names, hreached.below hproper hm⟩

/-- Whatever names lead to is the place itself or below it. -/
theorem exists_mem_of_at? {p : Place} {names : List String} {e : Entry} (hproper : p.entry.Proper)
    (h : p.entry.at? names = some e) :
    ∃ q ∈ p :: p.descendants, q.entry = e ∧ Reached p names q := by
  induction names generalizing p with
  | nil => exact ⟨p, List.mem_cons_self, Option.some.inj h, .self p⟩
  | cons n names ih =>
      obtain ⟨inner, hchild, h⟩ := Option.bind_eq_some_iff.1 h
      have hm := mem_entries_of_child? hchild
      obtain ⟨q, hq, hentry, hreached⟩ :=
        ih (p := p.below n inner) (proper_of_mem_entries hproper hm) h
      have hbelow : q ∈ p.descendants := mem_descendants_iff.2 ⟨(n, inner), hm, hq⟩
      exact ⟨q, List.mem_cons_of_mem p hbelow, hentry, hreached.below hproper hm⟩

/-! ## order -/

/-- The order of places, by their paths. -/
abbrev Before (p q : Place) : Prop := less p.path q.path = true

/-- **The places below a place** come in the order of their paths. -/
theorem pairwise_descendants {p : Place} (hproper : p.entry.Proper) :
    (p :: p.descendants).Pairwise Before := by
  induction he : p.entry using Entry.member_induction generalizing p with
  | step e ih =>
      refine List.pairwise_cons.2 ⟨fun q hq => ?_, ?_⟩
      · obtain ⟨m, hm, hq⟩ := mem_descendants_iff.1 hq
        obtain ⟨names, hreached⟩ := exists_reached_below hproper hm hq
        rw [Before, hreached.path]
        exact less_append_self _ (by simp)
      · rw [descendants_eq, List.pairwise_flatMap]
        constructor
        · intro r hr
          obtain ⟨m, hm, rfl⟩ := List.mem_map.1 hr
          exact ih m (he ▸ hm) (proper_of_mem_entries hproper hm) rfl
        · rw [children, List.pairwise_map]
          refine (pairwise_entries hproper).imp_of_mem fun hm hn hless q hq r hr => ?_
          obtain ⟨names, hreached⟩ := exists_reached_below hproper hm hq
          obtain ⟨names', hreached'⟩ := exists_reached_below hproper hn hr
          rw [Before, hreached.path, hreached'.path, less_append_left, List.map_cons, List.map_cons]
          exact less_of_name hless _ _

end Place

end LocaleAudit
