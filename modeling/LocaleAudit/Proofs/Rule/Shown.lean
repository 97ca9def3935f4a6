import LocaleAudit.Proofs.Json.Locate
import LocaleAudit.Proofs.Locale.Finding
import LocaleAudit.Rule.Unused
import Mathlib.Data.List.Nodup

/-!
# LocaleAudit.Proofs.Rule.Shown

The values that the rule of unused keys shows.  A finding is that of the value of a catalog, where
the last of the members with one name counts, and an issue shows the first property with the path
of the finding.  The two are the same unless the path is written more than once.

* `unambiguous_of_undotted` — names that are distinct and have no dots write each path once;
* `shown_of_mem_unusedIssues` — what an issue shows, and when that is what the catalog holds;
* `shown_repeated` — what it shows where a name is repeated.
-/

namespace LocaleAudit.Rule

open Text Json Key LocaleAudit.Locale

/-! ## paths that are written once -/

/-- All properties with a path have the same value. -/
def Unambiguous (n : Node) (path : String) : Prop :=
  ∀ p ∈ properties n, ∀ q ∈ properties n, p.path = path → q.path = path →
    p.2.value.toValue = q.2.value.toValue

/-- Names without dots can be told from their path. -/
theorem intercalate_inj {names names' : List String} (hne : names ≠ []) (hne' : names' ≠ [])
    (h : ∀ name ∈ names, '.' ∉ name.toList) (h' : ∀ name ∈ names', '.' ∉ name.toList)
    (heq : ".".intercalate names = ".".intercalate names') : names = names' := by
  induction names generalizing names' with
  | nil => contradiction
  | cons name rest ih =>
      cases names' with
      | nil => contradiction
      | cons name' rest' =>
          obtain ⟨hname, hrest⟩ := List.forall_mem_cons.1 h
          obtain ⟨hname', hrest'⟩ := List.forall_mem_cons.1 h'
          by_cases hnil : rest = [] <;> by_cases hnil' : rest' = []
          · subst hnil hnil'
            simpa using heq
          · rw [hnil, String.intercalate_singleton, intercalate_cons hnil'] at heq
            exact absurd heq (ne_under hname)
          · rw [hnil', String.intercalate_singleton, intercalate_cons hnil] at heq
            exact absurd heq.symm (ne_under hname')
          · rw [intercalate_cons hnil, intercalate_cons hnil', under_inj hname hname'] at heq
            rw [heq.1, ih hnil hnil' hrest hrest' heq.2]

/-- **Names that are distinct in each object and have no dots** write each path once. -/
theorem unambiguous_of_undotted {n : Node} (hdistinct : ((properties n).map (·.1)).Nodup)
    (hnames : ∀ p ∈ properties n, ∀ name ∈ p.1, '.' ∉ name.toList) (path : String) :
    Unambiguous n path := by
  intro p hp q hq hpath hpath'
  have hsame : p.1 = q.1 := intercalate_inj (names_ne_nil hp) (names_ne_nil hq)
    (hnames p hp) (hnames q hq) (hpath.trans hpath'.symm)
  rw [List.inj_on_of_nodup_map hdistinct hp hq hsame]

/-! ## shown values -/

/-- **An issue of an unused key shows the first property** that is written at the path of a finding.
If all that are written there have the same value, this is the one that stands at the path in the
messages of the catalog, and it is not an object. -/
theorem shown_of_mem_unusedIssues {expected : KeySet} {catalogs : List Catalog} {issue : Issue}
    (h : issue ∈ unusedIssues expected catalogs) :
    ∃ c ∈ catalogs, ∃ f ∈ c.unusedKeys expected, unusedIssue? c f = some issue ∧
      ∃ context, issue = .unusedKey context ∧ ∃ first,
        firstAt f.path.toList (properties c.root) = some first ∧
        context.value = String.ofList first.value.toValue.compact ∧
        (Unambiguous c.root f.path → first.value.toValue.isObject = false ∧
          c.messages.HasLeaf f.path first.value.toValue) := by
  obtain ⟨c, hc, hissue⟩ := List.mem_flatMap.1 h
  obtain ⟨f, hf, hissue⟩ := List.mem_filterMap.1 hissue
  refine ⟨c, hc, f, hf, hissue, ?_⟩
  rw [unusedIssue?, Option.map_eq_some_iff] at hissue
  obtain ⟨first, hfirst, rfl⟩ := hissue
  refine ⟨_, rfl, first, by rw [← find?_eq_firstAt, hfirst], rfl, fun hunambiguous => ?_⟩
  -- the finding comes from a leaf, which is written at the path just like `first`
  obtain ⟨w, names, hne, hpath, hw⟩ := mem_leaves_iff_hasLeaf.1 (mem_unusedKeys hf).1
  obtain ⟨q, hq, rfl, rfl⟩ := exists_property_of_leafAt hw hne
  obtain ⟨p, hp, hpath', rfl⟩ := exists_mem_properties_of_find? hfirst
  rw [hunambiguous p hp q hq (String.toList_inj.1 hpath') hpath]
  exact ⟨hw.isObject_eq_false, _, hne, hpath, hw⟩

/-- A catalog in which each path is written once. -/
def nestedCatalog : Catalog :=
  ⟨"en.json", "en.json", .file, "\x7b\"a\":\x7b\"b\":1\x7d\x7d".toList, _, rfl⟩

/-- The value of the only message is shown. -/
theorem shown_of_mem_unusedIssues_nested :
    ∃ context, .unusedKey context ∈ unusedIssues .empty [nestedCatalog] ∧ context.value = "1" ∧
      ∃ f ∈ nestedCatalog.unusedKeys .empty, ∃ w, nestedCatalog.messages.HasLeaf f.path w ∧
        context.value = String.ofList w.compact := by
  have hissue : .unusedKey ⟨"en.json", ⟨1, 7⟩, "a.b", "en", "1"⟩ ∈
      unusedIssues .empty [nestedCatalog] := by decide +kernel
  obtain ⟨c, hc, f, hf, -, context, heq, first, -, hvalue, hleaf⟩ :=
    shown_of_mem_unusedIssues hissue
  obtain rfl := List.mem_singleton.1 hc
  obtain rfl := Issue.unusedKey.inj heq
  exact ⟨_, hissue, rfl, f, hf, _, (hleaf (unambiguous_of_undotted (by decide +kernel)
    (by decide +kernel) f.path)).2, hvalue⟩

/-- A catalog in which a name is repeated. -/
def repeatedCatalog : Catalog :=
  ⟨"en.json", "en.json", .file, "\x7b\"a\":1,\"a\":2\x7d".toList, _, rfl⟩

/-- The first of two members with one name is shown, but the catalog holds the last one. -/
theorem shown_repeated :
    unusedIssues .empty [repeatedCatalog] = [.unusedKey ⟨"en.json", ⟨1, 2⟩, "a", "en", "1"⟩] ∧
      (∃ w, repeatedCatalog.messages.HasLeaf "a" w) ∧
      ∀ w, repeatedCatalog.messages.HasLeaf "a" w → String.ofList w.compact = "2" := by
  have hmembers : ∀ m ∈ repeatedCatalog.messages.members,
      m.2.isObject = false ∧ String.ofList m.2.compact = "2" := by decide +kernel
  have hleaf : "a" ∈ leaves repeatedCatalog.messages := by decide +kernel
  refine ⟨by decide +kernel, mem_leaves_iff_hasLeaf.1 hleaf, ?_⟩
  rintro w ⟨names, hne, -, hw⟩
  cases hw with
  | here => exact absurd rfl hne
  | @member _ _ m names hm hw =>
      obtain ⟨hvalue, htext⟩ := hmembers m hm
      cases hw with
      | here => exact htext
      | member hm' =>
          rw [Value.members_eq_nil hvalue] at hm'
          exact absurd hm' List.not_mem_nil

end LocaleAudit.Rule
