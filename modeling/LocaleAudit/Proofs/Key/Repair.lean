import LocaleAudit.Proofs.Key.Path

/-!
# LocaleAudit.Proofs.Key.Repair

Acting on a difference.  Keys in excess are taken out and missing keys are put in; then nothing is
missing or in excess, and the two sides disagree about the shape where they did before.  What
carries the argument is that the keys that are moved are related to no key of the other side: those
taken out to none that is expected, and those put in to none that was there.

* `mem_repaired_of_overlaps`, `mem_of_mem_repaired` — what stays, and what was there;
* `disagreesAt_repaired_iff` — an expected key disagrees at the same place as before;
* `diff_repaired` — what is left of the difference.
-/

namespace LocaleAudit.Key

/-! ## where keys disagree -/

/-- What is related to a key overlaps with every ancestor of the key. -/
theorem Related.overlaps_of_isAncestor {a k q : String} (ha : Related a q)
    (hk : IsAncestor k q) : Overlaps a k := by
  rcases ha with ha | ha
  · exact ha.overlaps hk
  · exact .inr (.inr (hk.trans ha))

theorem exists_related_of_disagreesAt {other : KeySet} {q p : String}
    (h : DisagreesAt other q p) : ∃ k ∈ other, Related k q := by
  rcases h with ⟨hp, hanc, -⟩ | ⟨-, -, k, hk, hanc⟩
  · exact ⟨p, hp, .inl hanc⟩
  · exact ⟨k, hk, .inr hanc⟩

/-- Where a key disagrees with a set depends on its ancestors in the set, and on whether there is
anything below it. -/
theorem disagreesAt_congr {s t : KeySet} {q p : String}
    (habove : ∀ k, IsAncestor k q → (k ∈ s ↔ k ∈ t))
    (hbelow : (∃ k ∈ s, IsAncestor q k) ↔ ∃ k ∈ t, IsAncestor q k) :
    DisagreesAt s q p ↔ DisagreesAt t q p := by
  have hancestors (motive : String → Prop) :
      (∀ a ∈ s, IsAncestor a q → motive a) ↔ ∀ a ∈ t, IsAncestor a q → motive a :=
    ⟨fun h a ha hanc => h a ((habove a hanc).2 ha) hanc,
      fun h a ha hanc => h a ((habove a hanc).1 ha) hanc⟩
  have hplace : p ∈ s ∧ IsAncestor p q ↔ p ∈ t ∧ IsAncestor p q :=
    and_congr_left (habove p)
  rw [DisagreesAt, DisagreesAt, ← and_assoc, hplace, and_assoc, hancestors, hbelow]
  exact or_congr_right (and_congr_right fun _ => and_congr_left fun _ =>
    hancestors fun _ => False)

/-! ## the repair -/

/-- The keys that are there after those in excess have been taken out and the missing ones have
been put in. -/
def repaired (E A : KeySet) : KeySet :=
  (A.filter fun k => decide (.added k ∉ diff E A)).union
    (.ofList ((diff E A).filterMap Change.removed?))

variable {E A : KeySet} {k q p : String}

theorem mem_repaired_iff :
    k ∈ repaired E A ↔ (k ∈ A ∧ .added k ∉ diff E A) ∨ .removed k ∈ diff E A := by
  simp [repaired, Change.removed?_eq_some_iff]

/-- What overlaps with an expected key stays. -/
theorem mem_repaired_of_overlaps (hk : k ∈ A) (hq : q ∈ E) (h : Overlaps q k) :
    k ∈ repaired E A :=
  mem_repaired_iff.2 (.inl ⟨hk, fun hadded => (added_mem_diff_iff.1 hadded).2 q hq h⟩)

/-- What has been put in is expected. -/
theorem mem_of_mem_repaired (hk : k ∈ repaired E A) (hE : k ∉ E) : k ∈ A := by
  rcases mem_repaired_iff.1 hk with ⟨hA, -⟩ | hremoved
  · exact hA
  · exact absurd (removed_mem_diff_iff.1 hremoved).1 hE

/-- Whatever is there after the repair overlaps with an expected key. -/
theorem exists_overlaps_of_mem_repaired (hk : k ∈ repaired E A) : ∃ e ∈ E, Overlaps e k := by
  rcases mem_repaired_iff.1 hk with ⟨hA, hadded⟩ | hremoved
  · by_contra hnone
    exact hadded (added_mem_diff_iff.2 ⟨hA, fun e he h => hnone ⟨e, he, h⟩⟩)
  · exact ⟨k, (removed_mem_diff_iff.1 hremoved).1, .inl rfl⟩

/-- An expected key is missing, or overlaps with something that was there. -/
theorem removed_or_exists_overlaps (hq : q ∈ E) :
    .removed q ∈ diff E A ∨ ∃ a ∈ A, Overlaps a q := by
  by_cases h : ∃ a ∈ A, Overlaps a q
  · exact .inr h
  · exact .inl (removed_mem_diff_iff.2 ⟨hq, fun a ha hoverlaps => h ⟨a, ha, hoverlaps⟩⟩)

/-- Every expected key overlaps with something that is there after the repair. -/
theorem exists_mem_repaired_overlaps (hq : q ∈ E) : ∃ k ∈ repaired E A, Overlaps k q := by
  rcases removed_or_exists_overlaps hq with hremoved | ⟨a, ha, h⟩
  · exact ⟨q, mem_repaired_iff.2 (.inr hremoved), .inl rfl⟩
  · exact ⟨a, mem_repaired_of_overlaps ha hq h.symm, h⟩

/-! ## conflicts -/

/-- What overlaps with something that was there has not been put in. -/
theorem mem_of_mem_repaired_of_overlaps {a : String} (ha : a ∈ A) (h : Overlaps a k)
    (hk : k ∈ repaired E A) : k ∈ A := by
  rcases mem_repaired_iff.1 hk with ⟨hA, -⟩ | hremoved
  · exact hA
  · exact absurd h ((removed_mem_diff_iff.1 hremoved).2 a ha)

/-- **The place of a conflict stays**: an expected key that is related to something which was there
disagrees with what is there after the repair where it did before. -/
theorem disagreesAt_repaired_iff (hq : q ∈ E) (hrelated : ∃ a ∈ A, Related a q) :
    DisagreesAt (repaired E A) q p ↔ DisagreesAt A q p := by
  obtain ⟨a, ha, hrel⟩ := hrelated
  refine disagreesAt_congr (fun k hk => ⟨fun hmem => ?_, fun hmem => ?_⟩)
    ⟨fun ⟨k, hmem, hk⟩ => ?_, fun ⟨k, hmem, hk⟩ => ?_⟩
  · exact mem_of_mem_repaired_of_overlaps ha (hrel.overlaps_of_isAncestor hk) hmem
  · exact mem_repaired_of_overlaps hmem hq (.inr (.inr hk))
  · -- `k` may have been put in beside what was below `q`, but then that is below `q` as well
    rcases hrel with habove | hbelow
    · exact ⟨k, mem_of_mem_repaired_of_overlaps ha (.inr (.inl (habove.trans hk))) hmem, hk⟩
    · exact ⟨a, ha, hbelow⟩
  · exact ⟨k, mem_repaired_of_overlaps hmem hq (.inr (.inl hk)), hk⟩

/-- A key that only the expected side has disagrees as it did before. -/
theorem onlyExpected_repaired_iff (hq : q ∈ E) :
    (q ∉ repaired E A ∧ DisagreesAt (repaired E A) q p) ↔ (q ∉ A ∧ DisagreesAt A q p) := by
  constructor
  · rintro ⟨hnot, hdisagrees⟩
    have hA : q ∉ A := fun hA => hnot (mem_repaired_of_overlaps hA hq (.inl rfl))
    rcases removed_or_exists_overlaps (A := A) hq with hremoved | ⟨a, ha, rfl | hrelated⟩
    · exact absurd (mem_repaired_iff.2 (.inr hremoved)) hnot
    · exact absurd ha hA
    · exact ⟨hA, (disagreesAt_repaired_iff hq ⟨a, ha, hrelated⟩).1 hdisagrees⟩
  · rintro ⟨hA, hdisagrees⟩
    obtain ⟨a, ha, hrelated⟩ := exists_related_of_disagreesAt hdisagrees
    refine ⟨fun hmem => hA ?_, (disagreesAt_repaired_iff hq ⟨a, ha, hrelated⟩).2 hdisagrees⟩
    exact mem_of_mem_repaired_of_overlaps ha (.inr hrelated) hmem

/-- A key that only the other side has disagrees as it did before. -/
theorem onlyActual_repaired_iff (hE : k ∉ E) :
    (k ∈ repaired E A ∧ DisagreesAt E k p) ↔ (k ∈ A ∧ DisagreesAt E k p) := by
  refine and_congr_left fun hdisagrees => ⟨fun hk => mem_of_mem_repaired hk hE, fun hk => ?_⟩
  obtain ⟨e, he, hrelated⟩ := exists_related_of_disagreesAt hdisagrees
  exact mem_repaired_of_overlaps hk he (.inr hrelated)

/-- **One repair is enough.**  After the keys in excess have been taken out and the missing ones
have been put in, nothing is in excess or missing, and the conflicts are the same as before. -/
theorem diff_repaired (E A : KeySet) :
    (∀ p, .added p ∉ diff E (repaired E A)) ∧
    (∀ p, .removed p ∉ diff E (repaired E A)) ∧
    ∀ p, .changed p ∈ diff E (repaired E A) ↔ .changed p ∈ diff E A := by
  refine ⟨fun p hadded => ?_, fun p hremoved => ?_, fun p => ?_⟩
  · obtain ⟨hp, hapart⟩ := added_mem_diff_iff.1 hadded
    obtain ⟨e, he, hoverlaps⟩ := exists_overlaps_of_mem_repaired hp
    exact hapart e he hoverlaps
  · obtain ⟨hp, hapart⟩ := removed_mem_diff_iff.1 hremoved
    obtain ⟨k, hk, hoverlaps⟩ := exists_mem_repaired_overlaps hp
    exact hapart k hk hoverlaps
  · rw [changed_mem_diff, changed_mem_diff]
    refine exists_congr fun q => or_congr ?_ ?_
    · exact and_congr_right onlyExpected_repaired_iff
    · rw [and_left_comm, and_left_comm (a := q ∈ A)]
      exact and_congr_right onlyActual_repaired_iff

end LocaleAudit.Key
