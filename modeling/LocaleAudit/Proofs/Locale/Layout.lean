import LocaleAudit.Proofs.Locale.Attribution
import Mathlib.Data.List.Nodup

/-!
# LocaleAudit.Proofs.Locale.Layout

The two layouts against each other.  A catalog of several locales could be taken apart into files
that are named after their locales; here is what would be found in those, and that it is the same.

* `Catalog.unusedKeys_eq_sheet`, `Catalog.missingKeys_eq_sheet` — what is found in a file that is
  named after its locale;
* `layouts_agree` — the findings in a catalog of several locales are those of its locales, each
  under its name.
-/

namespace LocaleAudit.Locale

open Json Key

/-! ## the messages of one locale -/

/-- The messages of one locale, as a file that is named after it holds them. -/
structure Sheet where
  /-- The locale. -/
  locale : String
  /-- Its messages. -/
  messages : Value

namespace Sheet

variable {s : Sheet} {expected : KeySet} {f : Finding}

/-- What is told of a key, whose path is the key itself. -/
def finding (s : Sheet) (key : String) : Finding := ⟨s.locale, key, key⟩

/-- The keys in excess. -/
def unusedKeys (s : Sheet) (expected : KeySet) : List Finding :=
  ((diff expected (leaves s.messages)).filterMap Change.added?).map s.finding

/-- The missing keys. -/
def missingKeys (s : Sheet) (expected : KeySet) : List Finding :=
  ((diff expected (leaves s.messages)).filterMap Change.removed?).map s.finding

theorem mem_unusedKeys_iff :
    f ∈ s.unusedKeys expected ↔
      ∃ k ∈ leaves s.messages, (∀ e ∈ expected, ¬ Overlaps e k) ∧ f = s.finding k := by
  simp only [unusedKeys, List.mem_map, mem_added_diff_iff, and_assoc, eq_comm (a := f)]

theorem mem_missingKeys_iff :
    f ∈ s.missingKeys expected ↔
      ∃ k ∈ expected, (∀ leaf ∈ leaves s.messages, ¬ Overlaps leaf k) ∧ f = s.finding k := by
  simp only [missingKeys, List.mem_map, mem_removed_diff_iff, and_assoc, eq_comm (a := f)]

end Sheet

namespace Catalog

variable {c : Catalog} {locale : String}

/-- What is told of paths in a file that is named after its locale. -/
theorem filterMap_finding?_of_file (hlayout : c.layout = .file) (hlocales : c.locales = [locale])
    (paths : List String) :
    paths.filterMap c.finding? = paths.map (Sheet.finding ⟨locale, c.messages⟩) := by
  rw [← List.filterMap_eq_map]
  refine List.filterMap_congr fun path _ => ?_
  rw [finding?, hlayout, hlocales]
  rfl

/-- The keys in excess in a file that is named after its locale. -/
theorem unusedKeys_eq_sheet (hlayout : c.layout = .file) (hlocales : c.locales = [locale])
    (expected : KeySet) :
    c.unusedKeys expected = Sheet.unusedKeys ⟨locale, c.messages⟩ expected := by
  rw [unusedKeys_eq, filterMap_finding?_of_file hlayout hlocales, changes, expectedPaths, hlayout,
    Sheet.unusedKeys]

/-- The missing keys in a file that is named after its locale. -/
theorem missingKeys_eq_sheet (hlayout : c.layout = .file) (hlocales : c.locales = [locale])
    (expected : KeySet) :
    c.missingKeys expected = Sheet.missingKeys ⟨locale, c.messages⟩ expected := by
  rw [missingKeys_eq, filterMap_finding?_of_file hlayout hlocales, changes, expectedPaths, hlayout,
    Sheet.missingKeys]

end Catalog

/-! ## the messages of several locales -/

/-- The messages of the locales of a catalog of several, one by one. -/
def Catalog.sheets (c : Catalog) : List Sheet := c.messages.members.map fun m => ⟨m.1, m.2⟩

/-- What is told of the messages of one locale, where they stand under the name of the locale. -/
def Finding.inside (f : Finding) : Finding := { f with path := under f.locale f.path }

variable {c : Catalog} {expected : KeySet} {f : Finding}

/-- There is one sheet for each locale. -/
theorem eq_of_locale_eq {s t : Sheet} (hs : s ∈ c.sheets) (ht : t ∈ c.sheets)
    (h : s.locale = t.locale) : s = t := by
  obtain ⟨m, hm, rfl⟩ := List.mem_map.1 hs
  obtain ⟨m', hm', rfl⟩ := List.mem_map.1 ht
  rw [List.inj_on_of_nodup_map (nodup_names_toValue c.root) hm hm' h]

theorem mem_locales_of_mem_sheets (hlayout : c.layout = .key) {s : Sheet} (hs : s ∈ c.sheets) :
    s.locale ∈ c.locales := by
  obtain ⟨m, hm, rfl⟩ := List.mem_map.1 hs
  rw [Catalog.locales_of_key hlayout]
  exact List.mem_map_of_mem hm

theorem exists_sheet_of_mem_locales (hlayout : c.layout = .key) {locale : String}
    (hl : locale ∈ c.locales) : ∃ s ∈ c.sheets, s.locale = locale := by
  rw [Catalog.locales_of_key hlayout] at hl
  obtain ⟨m, hm, rfl⟩ := List.mem_map.1 hl
  exact ⟨_, List.mem_map_of_mem hm, rfl⟩

/-- The paths of a catalog of several locales are those of the sheets under their names. -/
theorem mem_leaves_iff_sheet (hobjects : ∀ s ∈ c.sheets, s.messages.isObject = true)
    {path : String} :
    path ∈ leaves c.messages ↔
      ∃ s ∈ c.sheets, ∃ k ∈ leaves s.messages, path = under s.locale k := by
  rw [mem_leaves_iff]
  constructor
  · rintro ⟨m, hm, hleaf⟩
    have hs : (⟨m.1, m.2⟩ : Sheet) ∈ c.sheets := List.mem_map_of_mem hm
    rcases hleaf with ⟨hobject, -⟩ | hleaf
    · rw [hobjects _ hs] at hobject
      contradiction
    · exact ⟨_, hs, hleaf⟩
  · rintro ⟨s, hs, hleaf⟩
    obtain ⟨m, hm, rfl⟩ := List.mem_map.1 hs
    exact ⟨m, hm, .inr hleaf⟩

theorem undotted_of_sheets (hlayout : c.layout = .key)
    (hnames : ∀ s ∈ c.sheets, '.' ∉ s.locale.toList) : c.Undotted := fun _ l hl => by
  obtain ⟨s, hs, rfl⟩ := exists_sheet_of_mem_locales hlayout hl
  exact hnames s hs

/-- A key in excess is one in the messages of its locale. -/
theorem mem_unusedKeys_iff_sheet (hlayout : c.layout = .key)
    (hobjects : ∀ s ∈ c.sheets, s.messages.isObject = true)
    (hnames : ∀ s ∈ c.sheets, '.' ∉ s.locale.toList) :
    f ∈ c.unusedKeys expected ↔ ∃ s ∈ c.sheets, ∃ g ∈ s.unusedKeys expected, f = g.inside := by
  have hundotted := undotted_of_sheets hlayout hnames
  obtain ⟨l, k, p⟩ := f
  rw [Catalog.mem_unusedKeys_iff_key hundotted, Catalog.pathOf, hlayout]
  dsimp only
  constructor
  · rintro ⟨hl, rfl, hleaf, hapart⟩
    obtain ⟨s, hs, k', hk', heq⟩ := (mem_leaves_iff_sheet hobjects).1 hleaf
    obtain ⟨rfl, rfl⟩ := (under_inj (hundotted hlayout l hl) (hnames s hs)).1 heq
    exact ⟨s, hs, _, Sheet.mem_unusedKeys_iff.2 ⟨k, hk', hapart, rfl⟩, rfl⟩
  · rintro ⟨s, hs, g, hg, heq⟩
    obtain ⟨k', hk', hapart, rfl⟩ := Sheet.mem_unusedKeys_iff.1 hg
    obtain ⟨rfl, rfl, rfl⟩ := Finding.mk.inj heq
    exact ⟨mem_locales_of_mem_sheets hlayout hs, rfl,
      (mem_leaves_iff_sheet hobjects).2 ⟨s, hs, k, hk', rfl⟩, hapart⟩

/-- A missing key is missing in the messages of its locale: those of the others are out of the
way. -/
theorem mem_missingKeys_iff_sheet (hlayout : c.layout = .key)
    (hobjects : ∀ s ∈ c.sheets, s.messages.isObject = true)
    (hnames : ∀ s ∈ c.sheets, '.' ∉ s.locale.toList) :
    f ∈ c.missingKeys expected ↔
      ∃ s ∈ c.sheets, ∃ g ∈ s.missingKeys expected, f = g.inside := by
  obtain ⟨l, k, p⟩ := f
  rw [Catalog.mem_missingKeys_iff_key (undotted_of_sheets hlayout hnames), Catalog.pathOf, hlayout]
  dsimp only
  constructor
  · rintro ⟨hl, rfl, hk, hapart⟩
    obtain ⟨s, hs, rfl⟩ := exists_sheet_of_mem_locales hlayout hl
    refine ⟨s, hs, _, Sheet.mem_missingKeys_iff.2 ⟨k, hk, fun leaf hleaf h => ?_, rfl⟩, rfl⟩
    exact hapart _ ((mem_leaves_iff_sheet hobjects).2 ⟨s, hs, leaf, hleaf, rfl⟩)
      ((overlaps_under_iff (hnames s hs) (hnames s hs)).2 ⟨rfl, h⟩)
  · rintro ⟨s, hs, g, hg, heq⟩
    obtain ⟨k', hk', hapart, rfl⟩ := Sheet.mem_missingKeys_iff.1 hg
    obtain ⟨rfl, rfl, rfl⟩ := Finding.mk.inj heq
    refine ⟨mem_locales_of_mem_sheets hlayout hs, rfl, hk', fun path hpath h => ?_⟩
    obtain ⟨t, ht, leaf, hleaf, rfl⟩ := (mem_leaves_iff_sheet hobjects).1 hpath
    obtain ⟨hlocale, h⟩ := (overlaps_under_iff (hnames t ht) (hnames s hs)).1 h
    obtain rfl := eq_of_locale_eq ht hs hlocale
    exact hapart leaf hleaf h

/-- **The two layouts agree**: if all outermost members of a catalog of several locales are objects
and no locale has a dot in its name, then what is found in the catalog is what is found in the
messages of each locale on their own, under its name.  That again is what is found in a file which
holds those messages and is named after the locale. -/
theorem layouts_agree (c : Catalog) (hlayout : c.layout = .key)
    (hobjects : ∀ s ∈ c.sheets, s.messages.isObject = true)
    (hnames : ∀ s ∈ c.sheets, '.' ∉ s.locale.toList) (expected : KeySet) :
    (∀ f, f ∈ c.unusedKeys expected ↔
      ∃ s ∈ c.sheets, ∃ g ∈ s.unusedKeys expected, f = g.inside) ∧
    (∀ f, f ∈ c.missingKeys expected ↔
      ∃ s ∈ c.sheets, ∃ g ∈ s.missingKeys expected, f = g.inside) ∧
    ∀ (file : Catalog) (locale : String), file.layout = .file → file.locales = [locale] →
      file.unusedKeys expected = Sheet.unusedKeys ⟨locale, file.messages⟩ expected ∧
        file.missingKeys expected = Sheet.missingKeys ⟨locale, file.messages⟩ expected :=
  ⟨fun _ => mem_unusedKeys_iff_sheet hlayout hobjects hnames,
    fun _ => mem_missingKeys_iff_sheet hlayout hobjects hnames,
    fun _ _ hfile hlocales => ⟨Catalog.unusedKeys_eq_sheet hfile hlocales expected,
      Catalog.missingKeys_eq_sheet hfile hlocales expected⟩⟩

/-- A catalog of two locales whose names start alike. -/
def alikeCatalog : Catalog :=
  ⟨"all.json", "all.json", .key, "\x7b\"en\":\x7b\"b\":1\x7d,\"en-US\":\x7b\x7d\x7d".toList, _, rfl⟩

/-- What only one of the two locales has is told of that one. -/
theorem layouts_agree_alike :
    alikeCatalog.layout = .key ∧
      (∀ s ∈ alikeCatalog.sheets, s.messages.isObject = true) ∧
      (∀ s ∈ alikeCatalog.sheets, '.' ∉ s.locale.toList) ∧
      (⟨"en", "b", "en.b"⟩ : Finding) ∈ alikeCatalog.unusedKeys (.ofList ["a"]) ∧
      ∃ s ∈ alikeCatalog.sheets, ∃ g ∈ s.missingKeys (.ofList ["a", "b"]),
        (⟨"en-US", "b", "en-US.b"⟩ : Finding) = g.inside := by
  have hobjects : ∀ s ∈ alikeCatalog.sheets, s.messages.isObject = true := by decide +kernel
  have hnames : ∀ s ∈ alikeCatalog.sheets, '.' ∉ s.locale.toList := by decide +kernel
  have hagree := layouts_agree alikeCatalog rfl hobjects hnames
  exact ⟨rfl, hobjects, hnames, ((hagree _).1 _).2 (by decide +kernel),
    ((hagree _).2.1 _).1 (by decide +kernel)⟩

end LocaleAudit.Locale
