import LocaleAudit.Proofs.Locale.Attribution
import LocaleAudit.Proofs.Rule.Missing

/-!
# LocaleAudit.Proofs.Rule.Declared

Findings in a catalog of several locales, and the locales that the catalog provides.  The rule of
missing keys asks for the findings of each locale by its name; it gets all of them unless there is
a dot in the name, which makes a locale of what stands in front of the dot.

* `missingKey_mem_missingIssues` — a key that a locale lacks is reported;
* `findings_declared` — findings belong to locales of the catalog if there are no dots in names;
* `findings_undeclared` — and they do not if there are.
-/

namespace LocaleAudit.Rule

open Key LocaleAudit.Locale

/-- A locale lacks a key in a catalog, and the two do not disagree about the shape: nothing that is
there overlaps with the path of the key. -/
def Lacks (c : Catalog) (locale key : String) : Prop :=
  ∀ path ∈ leaves c.messages, ¬ Overlaps path (c.pathOf locale key)

/-- A key that is lacking is found under the name of the locale. -/
theorem mem_missingKeys_of_lacks {c : Catalog} {used : KeySet} {locale key : String}
    (h : c.Undotted) (hlocale : locale ∈ c.locales) (hkey : key ∈ used)
    (hlacks : Lacks c locale key) :
    ⟨locale, key, c.pathOf locale key⟩ ∈ c.missingKeys used :=
  (Catalog.mem_missingKeys_iff_key h).2 ⟨hlocale, rfl, hkey, hlacks⟩

/-- **A used key that a locale lacks** in all catalogs which provide the locale is reported. -/
theorem missingKey_mem_missingIssues {used : UsedKeys} {catalogs : List Catalog} {u : Usage}
    (hu : u ∈ used.usages) {locale : String} (hlocale : ∃ c ∈ catalogs, locale ∈ c.locales)
    (hlacks : ∀ c ∈ catalogs, locale ∈ c.locales → c.Undotted ∧ Lacks c locale u.key) :
    .missingKey u.context u.key locale ∈ missingIssues used catalogs := by
  have hkey : u.key ∈ used.keys := KeySet.mem_ofList.2 (List.mem_map_of_mem hu)
  have hall : AllLack used.keys catalogs locale u.key := fun c hc hl =>
    ⟨_, mem_missingKeys_of_lacks (hlacks c hc hl).1 hl hkey (hlacks c hc hl).2, rfl, rfl⟩
  rw [missingIssues_eq_flatMap, List.mem_flatMap]
  refine ⟨u, hu, List.mem_map_of_mem (List.mem_filter.2 ⟨?_, decide_eq_true hall⟩)⟩
  exact mem_providedLocales.2 hlocale

/-- **Findings in a catalog of several locales** have the path of their key behind the name of their
locale.  If no locale has a dot in its name, their locale is one that the catalog provides; and a
used key which such a locale lacks is reported for it, unless another catalog has it. -/
theorem findings_declared (c : Catalog) (hlayout : c.layout = .key) :
    (∀ expected f, f ∈ c.missingKeys expected ∨ f ∈ c.unusedKeys expected →
      f.path = under f.locale f.key) ∧
    ((∀ l ∈ c.locales, '.' ∉ l.toList) →
      (∀ expected f, f ∈ c.missingKeys expected ∨ f ∈ c.unusedKeys expected →
        f.locale ∈ c.locales) ∧
      ∀ (used : UsedKeys) (catalogs : List Catalog), c ∈ catalogs → ∀ u ∈ used.usages,
        ∀ l ∈ c.locales,
          (∀ d ∈ catalogs, l ∈ d.locales → d.Undotted ∧ Lacks d l u.key) →
            .missingKey u.context u.key l ∈ missingIssues used catalogs) := by
  have hfinding {expected : KeySet} {f : Finding}
      (hf : f ∈ c.missingKeys expected ∨ f ∈ c.unusedKeys expected) :
      c.finding? f.path = some f ∧
        (f.path ∈ c.expectedPaths expected ∨ f.path ∈ leaves c.messages) := by
    rcases hf with hf | hf
    · obtain ⟨hf, hpath, -⟩ := Catalog.mem_missingKeys_iff.1 hf
      exact ⟨hf, .inl hpath⟩
    · obtain ⟨hf, hpath, -⟩ := Catalog.mem_unusedKeys_iff.1 hf
      exact ⟨hf, .inr hpath⟩
  refine ⟨fun expected f hf => ?_, fun hnames => ⟨fun expected f hf => ?_, ?_⟩⟩
  · have hpath := Catalog.eq_pathOf_of_finding? (hfinding hf).1
    rwa [Catalog.pathOf, hlayout] at hpath
  · exact Catalog.mem_locales_of_finding? (fun _ => hnames) (hfinding hf).1 (hfinding hf).2
  · intro used catalogs hc u hu l hl hlacks
    exact missingKey_mem_missingIssues hu ⟨c, hc, hl⟩ hlacks

/-- A catalog of one locale without any messages. -/
def plainCatalog : Catalog :=
  ⟨"all.json", "all.json", .key, "\x7b\"a\":\x7b\x7d\x7d".toList, _, rfl⟩

theorem lacks_plainCatalog : plainCatalog.Undotted ∧ Lacks plainCatalog "a" "k" := by
  have hnames : ∀ l ∈ plainCatalog.locales, '.' ∉ l.toList := by decide +kernel
  have hnone : (leaves plainCatalog.messages).toList = [] := by decide +kernel
  exact ⟨fun _ => hnames, fun path hpath => by simp [KeySet.mem_iff, hnone] at hpath⟩

/-- The locale is told that it lacks a key. -/
theorem findings_declared_plain :
    plainCatalog.layout = .key ∧ (∀ l ∈ plainCatalog.locales, '.' ∉ l.toList) ∧
      (∀ f ∈ plainCatalog.missingKeys (.ofList ["k"]), f.path = under f.locale f.key ∧
        f.locale ∈ plainCatalog.locales) ∧
      .missingKey default "k" "a" ∈ missingIssues (.ofUsages [⟨"k", default⟩]) [plainCatalog] := by
  obtain ⟨hundotted, hlacks⟩ := lacks_plainCatalog
  have hnames := hundotted rfl
  obtain ⟨hpath, hlocale⟩ := findings_declared plainCatalog rfl
  refine ⟨rfl, hnames, fun f hf => ⟨hpath _ f (.inl hf), (hlocale hnames).1 _ f (.inl hf)⟩, ?_⟩
  refine (hlocale hnames).2 (.ofUsages [⟨"k", default⟩]) [plainCatalog] List.mem_cons_self
    ⟨"k", default⟩ List.mem_cons_self "a" (by decide +kernel) fun d hd _ => ?_
  rw [List.mem_singleton.1 hd]
  exact ⟨hundotted, hlacks⟩

/-- A catalog of one locale that has a dot in its name, without any messages. -/
def dottedCatalog : Catalog :=
  ⟨"all.json", "all.json", .key, "\x7b\"a.b\":\x7b\x7d\x7d".toList, _, rfl⟩

/-- What a locale with a dot in its name lacks is told of a locale that the catalog does not
provide, so that it is not reported. -/
theorem findings_undeclared :
    dottedCatalog.locales = ["a.b"] ∧ Lacks dottedCatalog "a.b" "k" ∧
      dottedCatalog.missingKeys (.ofList ["k"]) = [⟨"a", "b.k", "a.b.k"⟩] ∧
      missingIssues (.ofUsages [⟨"k", default⟩]) [dottedCatalog] = [] := by
  have hnone : (leaves dottedCatalog.messages).toList = [] := by decide +kernel
  refine ⟨by decide +kernel, fun path hpath => ?_, by decide +kernel, by decide +kernel⟩
  simp [KeySet.mem_iff, hnone] at hpath

end LocaleAudit.Rule
