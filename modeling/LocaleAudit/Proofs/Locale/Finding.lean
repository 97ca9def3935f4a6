import LocaleAudit.Locale.Finding
import LocaleAudit.Proofs.Json.Value
import LocaleAudit.Proofs.Key.Path

/-!
# LocaleAudit.Proofs.Locale.Finding

What findings are about.  The paths of a catalog come from its value, where of the members with one
name only the last is left, but each of them is the path of a property that is written.

* `mem_leaves_iff_hasLeaf` — the paths of a value are those at which something stands;
* `exists_property_of_mem_leaves` — they are paths of properties;
* `Catalog.mem_unusedKeys_iff`, `Catalog.mem_missingKeys_iff` — a finding has a path on one side
  that does not overlap with any on the other.
-/

namespace LocaleAudit.Locale

open Json Key

/-! ## paths of values -/

theorem mem_leafPathsUnder {path leaf : String} {ms : List (String × Value)} :
    leaf ∈ leafPathsUnder path ms ↔ ∃ m ∈ ms, leaf ∈ leafPaths (under path m.1) m.2 := by
  induction ms with
  | nil => simp [leafPathsUnder]
  | cons m ms ih => simp [leafPathsUnder, ih]

theorem leafPaths_eq (path : String) (v : Value) :
    leafPaths path v = if v.isObject then leafPathsUnder path v.members else [path] := by
  cases v <;> rfl

theorem leaves_eq (v : Value) :
    leaves v = KeySet.ofList (v.members.flatMap fun m => leafPaths m.1 m.2) := by
  cases v <;> rfl

theorem mem_leaves_iff_leafPaths {v : Value} {leaf : String} :
    leaf ∈ leaves v ↔ ∃ m ∈ v.members, leaf ∈ leafPaths m.1 m.2 := by
  rw [leaves_eq, KeySet.mem_ofList, List.mem_flatMap]

/-- The paths of a value that is found at a path: that path, or those of an object under it. -/
theorem mem_leafPaths_iff {v : Value} {path leaf : String} :
    leaf ∈ leafPaths path v ↔
      (v.isObject = false ∧ leaf = path) ∨ ∃ k ∈ leaves v, leaf = under path k := by
  induction v using Value.member_induction generalizing path leaf with
  | step v ih =>
      rw [leafPaths_eq]
      split
      · rename_i hobject
        simp only [hobject, Bool.true_eq_false, false_and, false_or, mem_leafPathsUnder,
          mem_leaves_iff_leafPaths]
        constructor
        · rintro ⟨m, hm, h⟩
          rcases (ih m hm).1 h with ⟨hleaf, rfl⟩ | ⟨k, hk, rfl⟩
          · exact ⟨m.1, ⟨m, hm, (ih m hm).2 (.inl ⟨hleaf, rfl⟩)⟩, rfl⟩
          · exact ⟨under m.1 k, ⟨m, hm, (ih m hm).2 (.inr ⟨k, hk, rfl⟩)⟩, under_assoc _ _ _⟩
        · rintro ⟨k, ⟨m, hm, hk⟩, rfl⟩
          refine ⟨m, hm, (ih m hm).2 ?_⟩
          rcases (ih m hm).1 hk with ⟨hleaf, rfl⟩ | ⟨k', hk', rfl⟩
          · exact .inl ⟨hleaf, rfl⟩
          · exact .inr ⟨k', hk', (under_assoc _ _ _).symm⟩
      · rename_i hobject
        rw [Bool.not_eq_true] at hobject
        simp [hobject, mem_leaves_iff_leafPaths, Value.members_eq_nil]

/-- The paths of a value are those of its members. -/
theorem mem_leaves_iff {v : Value} {leaf : String} :
    leaf ∈ leaves v ↔ ∃ m ∈ v.members,
      (m.2.isObject = false ∧ leaf = m.1) ∨ ∃ k ∈ leaves m.2, leaf = under m.1 k := by
  rw [mem_leaves_iff_leafPaths]
  simp only [mem_leafPaths_iff]

theorem intercalate_cons {name : String} {names : List String} (h : names ≠ []) :
    ".".intercalate (name :: names) = under name (".".intercalate names) :=
  String.intercalate_cons_of_ne_nil h

/-- **The paths of a value** are those at which something stands that is not an object. -/
theorem mem_leaves_iff_hasLeaf {v : Value} {leaf : String} :
    leaf ∈ leaves v ↔ ∃ w, v.HasLeaf leaf w := by
  induction v using Value.member_induction generalizing leaf with
  | step v ih =>
      rw [mem_leaves_iff]
      constructor
      · rintro ⟨m, hm, ⟨hleaf, rfl⟩ | ⟨k, hk, rfl⟩⟩
        · exact ⟨m.2, [m.1], List.cons_ne_nil _ _, String.intercalate_singleton,
            .member hm (.here hleaf)⟩
        · obtain ⟨w, names, hne, rfl, hw⟩ := (ih m hm).1 hk
          exact ⟨w, m.1 :: names, List.cons_ne_nil _ _, intercalate_cons hne, .member hm hw⟩
      · rintro ⟨w, names, hne, rfl, hw⟩
        cases hw with
        | here => contradiction
        | @member _ _ m names hm hw =>
            refine ⟨m, hm, ?_⟩
            cases hw with
            | here hleaf => exact .inl ⟨hleaf, String.intercalate_singleton⟩
            | @member _ _ m' names hm' hw =>
                have hne' : m'.1 :: names ≠ [] := List.cons_ne_nil _ _
                exact .inr ⟨_, (ih m hm).2 ⟨w, _, hne', rfl, .member hm' hw⟩,
                  intercalate_cons hne'⟩

/-- The paths of the value of a node are paths of properties. -/
theorem exists_property_of_mem_leaves {n : Node} {leaf : String} (h : leaf ∈ leaves n.toValue) :
    ∃ p ∈ properties n, p.path = leaf := by
  obtain ⟨w, names, hne, rfl, hw⟩ := mem_leaves_iff_hasLeaf.1 h
  obtain ⟨p, hp, rfl, -⟩ := exists_property_of_leafAt hw hne
  exact ⟨p, hp, rfl⟩

/-! ## findings -/

namespace Catalog

variable {c : Catalog} {expected : KeySet} {f : Finding}

/-- A finding has the path that it is told of. -/
theorem path_of_finding? {path : String} (h : c.finding? path = some f) : f.path = path := by
  unfold finding? at h
  split at h
  · obtain ⟨locale, -, rfl⟩ := Option.map_eq_some_iff.1 h
    rfl
  · obtain ⟨key, -, rfl⟩ := Option.map_eq_some_iff.1 h
    rfl

/-- What is told of paths is told of each by its path. -/
theorem mem_filterMap_finding? {paths : List String} :
    f ∈ paths.filterMap c.finding? ↔ c.finding? f.path = some f ∧ f.path ∈ paths := by
  rw [List.mem_filterMap]
  constructor
  · rintro ⟨path, hpath, h⟩
    obtain rfl := path_of_finding? h
    exact ⟨h, hpath⟩
  · rintro ⟨h, hpath⟩
    exact ⟨f.path, hpath, h⟩

theorem unusedKeys_eq (c : Catalog) (expected : KeySet) :
    c.unusedKeys expected =
      ((c.changes expected).filterMap Change.added?).filterMap c.finding? := by
  rw [unusedKeys, List.filterMap_filterMap]
  refine List.filterMap_congr fun change _ => ?_
  cases change <;> rfl

theorem missingKeys_eq (c : Catalog) (expected : KeySet) :
    c.missingKeys expected =
      ((c.changes expected).filterMap Change.removed?).filterMap c.finding? := by
  rw [missingKeys, List.filterMap_filterMap]
  refine List.filterMap_congr fun change _ => ?_
  cases change <;> rfl

/-- **A key in excess** has a path that is there and that does not overlap with any that should be
there. -/
theorem mem_unusedKeys_iff :
    f ∈ c.unusedKeys expected ↔
      c.finding? f.path = some f ∧ f.path ∈ leaves c.messages ∧
        ∀ path ∈ c.expectedPaths expected, ¬ Overlaps path f.path := by
  rw [unusedKeys_eq, mem_filterMap_finding?, changes, mem_added_diff_iff]

/-- **A missing key** has a path that should be there and that does not overlap with any that is
there. -/
theorem mem_missingKeys_iff :
    f ∈ c.missingKeys expected ↔
      c.finding? f.path = some f ∧ f.path ∈ c.expectedPaths expected ∧
        ∀ path ∈ leaves c.messages, ¬ Overlaps path f.path := by
  rw [missingKeys_eq, mem_filterMap_finding?, changes, mem_removed_diff_iff]

end Catalog

/-- A key in excess has a path that the catalog has and should not have. -/
theorem mem_unusedKeys {c : Catalog} {expected : KeySet} {f : Finding}
    (h : f ∈ c.unusedKeys expected) :
    f.path ∈ leaves c.messages ∧ f.path ∉ c.expectedPaths expected := by
  obtain ⟨-, hleaf, hapart⟩ := Catalog.mem_unusedKeys_iff.1 h
  exact ⟨hleaf, fun hpath => hapart _ hpath (.inl rfl)⟩

end LocaleAudit.Locale
