import LocaleAudit.Proofs.Locale.Finding

/-!
# LocaleAudit.Proofs.Locale.Attribution

Whose the findings are.  In a catalog of several locales a path starts with the name of a locale,
which is taken to end at the first dot; that tells the locale unless there are dots in its name.
Where there are none, findings can be described locale by locale and key by key.

* `mem_locales_of_finding?` — the locale of a finding is one that the catalog provides;
* `mem_unusedKeys_iff_key`, `mem_missingKeys_iff_key` — the findings in terms of locales and keys.
-/

namespace LocaleAudit.Locale.Catalog

open Json Key

variable {c : Catalog} {expected : KeySet} {f : Finding} {locale key path : String}

/-- The path of a key of a locale. -/
def pathOf (c : Catalog) (locale key : String) : String :=
  match c.layout with
  | .file => key
  | .key => under locale key

/-- The names of locales have no dots, unless the catalog is named like its only locale. -/
def Undotted (c : Catalog) : Prop := c.layout = .key → ∀ l ∈ c.locales, '.' ∉ l.toList

/-! ## locales -/

theorem head?_locales_of_file (hlayout : c.layout = .file) :
    c.locales.head? = some locale ↔ locale ∈ c.locales := by
  rw [locales, hlayout]
  simp

/-- The locales of a catalog of several are the names of its outermost members. -/
theorem locales_of_key (hlayout : c.layout = .key) :
    c.locales = c.messages.members.map (·.1) := by
  rw [locales, hlayout]
  cases c.messages <;> rfl

/-! ## paths -/

theorem finding?_of_file (hlayout : c.layout = .file) :
    c.finding? path = some f ↔ f.locale ∈ c.locales ∧ f.key = path ∧ f.path = path := by
  obtain ⟨l, k, p⟩ := f
  rw [finding?, hlayout, ← head?_locales_of_file hlayout, Option.map_eq_some_iff]
  simp [eq_comm (a := path)]

theorem finding?_of_key (hlayout : c.layout = .key) :
    c.finding? path = some f ↔
      path = under f.locale f.key ∧ f.path = path ∧ '.' ∉ f.locale.toList := by
  obtain ⟨l, k, p⟩ := f
  rw [finding?, hlayout, Option.map_eq_some_iff]
  constructor
  · rintro ⟨⟨name, rest⟩, hsplit, heq⟩
    obtain ⟨rfl, rfl, rfl⟩ : String.ofList name = l ∧ String.ofList rest = k ∧ path = p := by
      simpa using heq
    obtain ⟨hpath, hname⟩ := splitFirst?_eq_some_iff.1 hsplit
    refine ⟨String.toList_inj.1 ?_, rfl, by rwa [String.toList_ofList]⟩
    rw [hpath, toList_under, String.toList_ofList, String.toList_ofList]
  · rintro ⟨hpath, rfl, hname⟩
    refine ⟨(l.toList, k.toList), splitFirst?_eq_some_iff.2 ⟨?_, hname⟩, by simp⟩
    exact hpath ▸ toList_under l k

/-- A finding is told of the path of its key, whatever the names of locales. -/
theorem eq_pathOf_of_finding? (h : c.finding? path = some f) :
    path = c.pathOf f.locale f.key := by
  cases hlayout : c.layout with
  | file => simp [pathOf, hlayout, ((finding?_of_file hlayout).1 h).2.1]
  | key => simp [pathOf, hlayout, ← ((finding?_of_key hlayout).1 h).1]

/-- The path of a key tells the key and its locale. -/
theorem finding?_pathOf (h : c.Undotted) (hlocale : locale ∈ c.locales) :
    c.finding? (c.pathOf locale key) = some ⟨locale, key, c.pathOf locale key⟩ := by
  cases hlayout : c.layout with
  | file =>
      rw [finding?_of_file hlayout]
      exact ⟨hlocale, by rw [pathOf, hlayout], rfl⟩
  | key =>
      rw [finding?_of_key hlayout]
      exact ⟨by rw [pathOf, hlayout], rfl, h hlayout locale hlocale⟩

theorem mem_expectedPaths_of_key (hlayout : c.layout = .key) :
    path ∈ c.expectedPaths expected ↔ ∃ l ∈ c.locales, ∃ k ∈ expected, path = under l k := by
  rw [expectedPaths, hlayout, fanOut]
  simp [eq_comm, KeySet.mem_iff (s := expected)]

/-- The path of a key is expected exactly if the key is. -/
theorem pathOf_mem_expectedPaths_iff (h : c.Undotted) (hlocale : locale ∈ c.locales) :
    c.pathOf locale key ∈ c.expectedPaths expected ↔ key ∈ expected := by
  cases hlayout : c.layout with
  | file => rw [pathOf, expectedPaths, hlayout]
  | key =>
      rw [mem_expectedPaths_of_key hlayout, pathOf, hlayout]
      constructor
      · rintro ⟨l, hl, k, hk, heq⟩
        rwa [((under_inj (h hlayout locale hlocale) (h hlayout l hl)).1 heq).2]
      · exact fun hkey => ⟨locale, hlocale, key, hkey, rfl⟩

/-- **Nothing of one locale overlaps with another one**: a path that is expected and that overlaps
with the path of a key is that of a key which overlaps with it. -/
theorem exists_overlaps_iff (h : c.Undotted) (hlocale : locale ∈ c.locales) :
    (∃ p ∈ c.expectedPaths expected, Overlaps p (c.pathOf locale key)) ↔
      ∃ k ∈ expected, Overlaps k key := by
  cases hlayout : c.layout with
  | file => simp only [expectedPaths, pathOf, hlayout]
  | key =>
      simp only [mem_expectedPaths_of_key hlayout, pathOf, hlayout]
      constructor
      · rintro ⟨_, ⟨l, hl, k, hk, rfl⟩, hoverlaps⟩
        exact ⟨k, hk, ((overlaps_under_iff (h hlayout l hl) (h hlayout locale hlocale)).1
          hoverlaps).2⟩
      · rintro ⟨k, hk, hoverlaps⟩
        have hname := h hlayout locale hlocale
        exact ⟨_, ⟨locale, hlocale, k, hk, rfl⟩,
          (overlaps_under_iff hname hname).2 ⟨rfl, hoverlaps⟩⟩

/-- **The locale of a finding** is one that the catalog provides, whether it is told of a path that
is expected or of one that is there. -/
theorem mem_locales_of_finding? (h : c.Undotted) (hfinding : c.finding? path = some f)
    (hpath : path ∈ c.expectedPaths expected ∨ path ∈ leaves c.messages) :
    f.locale ∈ c.locales := by
  cases hlayout : c.layout with
  | file => exact ((finding?_of_file hlayout).1 hfinding).1
  | key =>
      obtain ⟨rfl, -, hname⟩ := (finding?_of_key hlayout).1 hfinding
      -- on both sides a path starts with the name of a locale, and these names have no dots
      rcases hpath with hpath | hpath
      · obtain ⟨l, hl, k, -, heq⟩ := (mem_expectedPaths_of_key hlayout).1 hpath
        rwa [((under_inj hname (h hlayout l hl)).1 heq).1]
      · obtain ⟨m, hm, hleaf⟩ := mem_leaves_iff.1 hpath
        have hl : m.1 ∈ c.locales := by
          rw [locales_of_key hlayout]
          exact List.mem_map_of_mem hm
        have hundotted := h hlayout m.1 hl
        rcases hleaf with ⟨-, heq⟩ | ⟨k, -, heq⟩
        · exact absurd heq.symm (ne_under hundotted)
        · rwa [((under_inj hname hundotted).1 heq).1]

/-! ## findings -/

/-- **A key in excess**, in terms of locales and keys: it is there for its locale, and it does not
overlap with any that is expected. -/
theorem mem_unusedKeys_iff_key (h : c.Undotted) :
    f ∈ c.unusedKeys expected ↔
      f.locale ∈ c.locales ∧ f.path = c.pathOf f.locale f.key ∧ f.path ∈ leaves c.messages ∧
        ∀ k ∈ expected, ¬ Overlaps k f.key := by
  rw [mem_unusedKeys_iff]
  constructor
  · rintro ⟨hfinding, hleaf, hapart⟩
    have hthere : f.path ∈ c.expectedPaths expected ∨ f.path ∈ leaves c.messages := .inr hleaf
    have hlocale := mem_locales_of_finding? h hfinding hthere
    have hpath := eq_pathOf_of_finding? hfinding
    refine ⟨hlocale, hpath, hleaf, fun k hk hoverlaps => ?_⟩
    obtain ⟨p, hp, hoverlaps⟩ := (exists_overlaps_iff h hlocale).2 ⟨k, hk, hoverlaps⟩
    exact hapart p hp (hpath ▸ hoverlaps)
  · rintro ⟨hlocale, hpath, hleaf, hapart⟩
    refine ⟨?_, hleaf, fun p hp hoverlaps => ?_⟩
    · rw [hpath, finding?_pathOf h hlocale, ← hpath]
    · obtain ⟨k, hk, hoverlaps⟩ :=
        (exists_overlaps_iff h hlocale).1 ⟨p, hp, hpath ▸ hoverlaps⟩
      exact hapart k hk hoverlaps

/-- **A missing key**, in terms of locales and keys: it is expected, and its path in the catalog
does not overlap with any that is there. -/
theorem mem_missingKeys_iff_key (h : c.Undotted) :
    f ∈ c.missingKeys expected ↔
      f.locale ∈ c.locales ∧ f.path = c.pathOf f.locale f.key ∧ f.key ∈ expected ∧
        ∀ path ∈ leaves c.messages, ¬ Overlaps path f.path := by
  rw [mem_missingKeys_iff]
  constructor
  · rintro ⟨hfinding, hexpected, hapart⟩
    have hlocale := mem_locales_of_finding? h hfinding (.inl hexpected)
    have hpath := eq_pathOf_of_finding? hfinding
    refine ⟨hlocale, hpath, ?_, hapart⟩
    rwa [hpath, pathOf_mem_expectedPaths_iff h hlocale] at hexpected
  · rintro ⟨hlocale, hpath, hkey, hapart⟩
    refine ⟨?_, ?_, hapart⟩
    · rw [hpath, finding?_pathOf h hlocale, ← hpath]
    · rwa [hpath, pathOf_mem_expectedPaths_iff h hlocale]

end LocaleAudit.Locale.Catalog
