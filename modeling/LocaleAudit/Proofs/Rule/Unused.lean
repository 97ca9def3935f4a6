import LocaleAudit.Proofs.Json.Locate
import LocaleAudit.Proofs.Json.Parser
import LocaleAudit.Proofs.Json.Place
import LocaleAudit.Proofs.Locale.Finding
import LocaleAudit.Proofs.Text.Position
import LocaleAudit.Rule.Unused
import Mathlib.Data.List.Forall2

/-!
# LocaleAudit.Proofs.Rule.Unused

The rule of unused keys against the text.  What is unused is found in the value of a catalog, and
where it stands is looked for in the nodes; the properties of the nodes are what both have in
common, so that no finding is lost on the way.

* `unusedIssues_forall₂` — an issue for each finding, at the name of a property with its path.
-/

namespace LocaleAudit.Rule

open Text Json Json.Grammar LocaleAudit.Locale

/-- An issue tells of a finding in a catalog and points to a string literal in its text, which is
the name of a property whose path is that of the finding. -/
inductive Reports (c : Catalog) (f : Finding) : Issue → Prop
  | intro {before literal after : List Char} {p : Property} (hproperty : p ∈ properties c.root)
      (hpath : p.path = f.path) (htext : c.text = before ++ literal ++ after)
      (hliteral : Literal literal p.2.key.name)
      (hspan : p.2.key.span = spanOf (byteLength before) literal) :
      Reports c f (.unusedKey {
        file := c.shown
        position := placeBehind before
        key := f.key
        locale := f.locale
        value := String.ofList p.2.value.toValue.compact })

/-- A finding that is a property of the catalog is located. -/
theorem exists_unusedIssue? {c : Catalog} {f : Finding} (h : f.path ∈ leaves c.messages) :
    ∃ issue, unusedIssue? c f = some issue ∧ Reports c f issue := by
  obtain ⟨q, hq, hpath⟩ := exists_property_of_mem_leaves h
  obtain ⟨m, hm⟩ := exists_find?_of_mem_properties hq
  rw [hpath] at hm
  -- the search may give another property than `q`, but one with the same path
  obtain ⟨p, hp, hpath', rfl⟩ := exists_mem_properties_of_find? hm
  obtain ⟨before, literal, after, htext, hliteral, hspan⟩ :=
    literal_of_document (document_of_parse c.parsed) hp
  have hposition : position c.text p.2.key.span.lo = placeBehind before := by
    rw [htext, hspan, List.append_assoc]
    exact position_append before (literal ++ after)
  have hreports := Reports.intro hp (String.toList_inj.1 hpath') htext hliteral hspan
  rw [← hposition] at hreports
  exact ⟨_, by rw [unusedIssue?, hm]; rfl, hreports⟩

/-- What is made of every element of a list is made in the order of the list. -/
theorem forall₂_filterMap {α β : Type} {R : α → β → Prop} {g : α → Option β} {l : List α}
    (h : ∀ a ∈ l, ∃ b, g a = some b ∧ R a b) : List.Forall₂ R l (l.filterMap g) := by
  induction l with
  | nil => exact .nil
  | cons a l ih =>
      obtain ⟨ha, hl⟩ := List.forall_mem_cons.1 h
      obtain ⟨b, hb, hab⟩ := ha
      rw [List.filterMap_cons_some hb]
      exact .cons hab (ih hl)

/-- **Nothing is lost**: there is an issue for each finding, catalog by catalog and in the order of
the findings, and it points to the name of a property that has the path of the finding. -/
theorem unusedIssues_forall₂ (expected : KeySet) (catalogs : List Catalog) :
    List.Forall₂ (fun found issue => Reports found.1 found.2 issue)
      (catalogs.flatMap fun c => (c.unusedKeys expected).map (c, ·))
      (unusedIssues expected catalogs) := by
  have hissues : unusedIssues expected catalogs =
      (catalogs.flatMap fun c => (c.unusedKeys expected).map (c, ·)).filterMap
        fun found => unusedIssue? found.1 found.2 := by
    simp only [unusedIssues, List.filterMap_flatMap, List.filterMap_map, Function.comp_def]
  rw [hissues]
  refine forall₂_filterMap fun found hfound => ?_
  obtain ⟨c, -, hfound⟩ := List.mem_flatMap.1 hfound
  obtain ⟨f, hf, rfl⟩ := List.mem_map.1 hfound
  exact exists_unusedIssue? (mem_unusedKeys hf).1

end LocaleAudit.Rule
