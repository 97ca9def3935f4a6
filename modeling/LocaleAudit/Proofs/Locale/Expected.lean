import LocaleAudit.Proofs.Locale.Attribution
import Mathlib.Data.List.Nodup

/-!
# LocaleAudit.Proofs.Locale.Expected

How the findings in a catalog depend on the keys that are expected.  Each key is expected at paths
of its own, whatever the others are; so it is missing whatever the others are, and it spares what
overlaps with it whatever the others are.

* `mem_expectedPaths_iff` — the paths that are expected, key by key;
* `nodup_missingKeys`, `nodup_unusedKeys` — nothing is found twice;
* `findings_union` — the findings for two sets of keys together.
-/

namespace LocaleAudit.Locale.Catalog

open Json Key

variable {c : Catalog} {E F : KeySet} {f : Finding} {path : String}

/-! ## paths that are expected -/

/-- The paths of a key in a catalog, one for each locale. -/
def pathsOf (c : Catalog) (key : String) : List String :=
  match c.layout with
  | .file => [key]
  | .key => c.locales.map (under · key)

/-- **The paths that are expected** are those of the keys, one by one. -/
theorem mem_expectedPaths_iff :
    path ∈ c.expectedPaths E ↔ ∃ k ∈ E, path ∈ c.pathsOf k := by
  cases hlayout : c.layout with
  | file => simp [expectedPaths, pathsOf, hlayout]
  | key =>
      simp only [mem_expectedPaths_of_key hlayout, pathsOf, hlayout, List.mem_map,
        eq_comm (a := path)]
      constructor
      · rintro ⟨l, hl, k, hk, hpath⟩
        exact ⟨k, hk, l, hl, hpath⟩
      · rintro ⟨k, hk, l, hl, hpath⟩
        exact ⟨l, hl, k, hk, hpath⟩

theorem mem_expectedPaths_union :
    path ∈ c.expectedPaths (E.union F) ↔ path ∈ c.expectedPaths E ∨ path ∈ c.expectedPaths F := by
  simp only [mem_expectedPaths_iff, KeySet.mem_union, or_and_right, exists_or]

theorem expectedPaths_mono (h : ∀ k ∈ E, k ∈ F) (hpath : path ∈ c.expectedPaths E) :
    path ∈ c.expectedPaths F := by
  obtain ⟨k, hk, hmem⟩ := mem_expectedPaths_iff.1 hpath
  exact mem_expectedPaths_iff.2 ⟨k, h k hk, hmem⟩

/-! ## findings -/

theorem mem_missingKeys_union :
    f ∈ c.missingKeys (E.union F) ↔ f ∈ c.missingKeys E ∨ f ∈ c.missingKeys F := by
  simp only [mem_missingKeys_iff, mem_expectedPaths_union, or_and_right, and_or_left]

theorem mem_unusedKeys_union :
    f ∈ c.unusedKeys (E.union F) ↔ f ∈ c.unusedKeys E ∧ f ∈ c.unusedKeys F := by
  simp only [mem_unusedKeys_iff, mem_expectedPaths_union, or_imp, forall_and]
  tauto

/-- What is missing stays so if more keys are expected. -/
theorem missingKeys_mono (h : ∀ k ∈ E, k ∈ F) (hf : f ∈ c.missingKeys E) :
    f ∈ c.missingKeys F := by
  obtain ⟨hfinding, hpath, hapart⟩ := mem_missingKeys_iff.1 hf
  exact mem_missingKeys_iff.2 ⟨hfinding, expectedPaths_mono h hpath, hapart⟩

/-- What is in excess was so when fewer keys were expected. -/
theorem unusedKeys_anti (h : ∀ k ∈ E, k ∈ F) (hf : f ∈ c.unusedKeys F) : f ∈ c.unusedKeys E := by
  obtain ⟨hfinding, hleaf, hapart⟩ := mem_unusedKeys_iff.1 hf
  exact mem_unusedKeys_iff.2
    ⟨hfinding, hleaf, fun path hpath => hapart path (expectedPaths_mono h hpath)⟩

/-- Different paths are told as different findings. -/
theorem nodup_findings {paths : List String} (h : paths.Nodup) :
    (paths.filterMap c.finding?).Nodup :=
  h.filterMap fun _ _ _ hf hf' => (path_of_finding? hf).symm.trans (path_of_finding? hf')

theorem nodup_missingKeys (c : Catalog) (E : KeySet) : (c.missingKeys E).Nodup := by
  rw [missingKeys_eq]
  exact nodup_findings ((removed_diff_ascending _ _).imp fun h => String.ne_of_lt h)

theorem nodup_unusedKeys (c : Catalog) (E : KeySet) : (c.unusedKeys E).Nodup := by
  rw [unusedKeys_eq]
  exact nodup_findings ((added_diff_ascending _ _).imp fun h => String.ne_of_lt h)

/-- **Findings combine key by key.**  For two sets of keys together, what is missing is what is
missing for one of them, and what is in excess is what is in excess for both; nothing is found
twice.  So when more keys are expected, every missing key is still found and no further one is in
excess. -/
theorem findings_union (c : Catalog) (E F : KeySet) :
    (∀ f, f ∈ c.missingKeys (E.union F) ↔ f ∈ c.missingKeys E ∨ f ∈ c.missingKeys F) ∧
    (∀ f, f ∈ c.unusedKeys (E.union F) ↔ f ∈ c.unusedKeys E ∧ f ∈ c.unusedKeys F) ∧
    (c.missingKeys (E.union F)).Nodup ∧ (c.unusedKeys (E.union F)).Nodup ∧
    ((∀ k ∈ E, k ∈ F) →
      (∀ f ∈ c.missingKeys E, f ∈ c.missingKeys F) ∧
        ∀ f ∈ c.unusedKeys F, f ∈ c.unusedKeys E) :=
  ⟨fun _ => mem_missingKeys_union, fun _ => mem_unusedKeys_union, nodup_missingKeys c _,
    nodup_unusedKeys c _, fun h => ⟨fun _ => missingKeys_mono h, fun _ => unusedKeys_anti h⟩⟩

/-- A catalog of two locales, one of which has no messages yet. -/
def unevenCatalog : Catalog :=
  ⟨"all.json", "all.json", .key, "\x7b\"en\":\x7b\"a\":1\x7d,\"ja\":\x7b\x7d\x7d".toList, _, rfl⟩

/-- What is missing stays so although more keys are expected, while what was in excess comes to
disagree with one of these about the shape. -/
theorem findings_union_uneven :
    (∀ k ∈ KeySet.ofList ["b"], k ∈ KeySet.ofList ["a.x", "b"]) ∧
      ⟨"ja", "b", "ja.b"⟩ ∈ unevenCatalog.missingKeys (.ofList ["a.x", "b"]) ∧
      (∀ f ∈ unevenCatalog.unusedKeys (.ofList ["a.x", "b"]),
        f ∈ unevenCatalog.unusedKeys (.ofList ["b"])) ∧
      ⟨"en", "a", "en.a"⟩ ∈ unevenCatalog.unusedKeys (.ofList ["b"]) ∧
      ⟨"en", "a", "en.a"⟩ ∉ unevenCatalog.unusedKeys (.ofList ["a.x", "b"]) := by
  have hsub : ∀ k ∈ KeySet.ofList ["b"], k ∈ KeySet.ofList ["a.x", "b"] := by simp
  obtain ⟨-, -, -, -, hmono⟩ := findings_union unevenCatalog (.ofList ["b"]) (.ofList ["a.x", "b"])
  obtain ⟨hmissing, hunused⟩ := hmono hsub
  exact ⟨hsub, hmissing _ (by decide +kernel), hunused, by decide +kernel, by decide +kernel⟩

end LocaleAudit.Locale.Catalog
