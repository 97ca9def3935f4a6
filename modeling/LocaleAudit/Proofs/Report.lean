import LocaleAudit.Proofs.Issue
import LocaleAudit.Report

/-!
# LocaleAudit.Proofs.Report

Reports of the same issues.  A record shows what the order of issues compares and nothing else, so
that the records of sorted issues do not depend on the order in which the issues were found, and
neither does what is counted.

* `record_eq_iff` — the issues with one record are those that the order does not tell apart;
* `errors_ofIssues`, `warnings_ofIssues` — what is counted;
* `json_canonical` — the report for programs is settled by which issues there are.
-/

namespace LocaleAudit

/-! ## records -/

namespace Report

theorem severity_eq (a : Issue) :
    a.severity = if a.rule = .unusedKey then .warning else .error := by
  cases a <;> rfl

/-- **The issues with one record** are those that the order does not tell apart. -/
theorem record_eq_iff {a b : Issue} : record a = record b ↔ a.compare b = .eq := by
  have hrule : a.rule.name = b.rule.name ↔ a.rule = b.rule := by
    cases a.rule <;> cases b.rule <;> decide
  rw [Issue.compare_eq_eq_iff]
  constructor
  · intro h
    simp only [record, Json.Value.object.injEq, List.cons.injEq, Prod.mk.injEq, true_and,
      Json.Value.string.injEq, Json.Value.number.injEq, Json.Number.whole.injEq, Int.natCast_inj,
      and_true, hrule] at h
    obtain ⟨hfile, hsame, -, hmessage, hline, hcol⟩ := h
    exact ⟨hfile, hline, hcol, hsame, hmessage⟩
  · rintro ⟨hfile, hline, hcol, hsame, hmessage⟩
    rw [record, record, severity_eq, severity_eq, hfile, hline, hcol, hsame, hmessage]

/-- A class of alike issues has as many copies of one record. -/
theorem map_record_filter_alike (a : Issue) (issues : List Issue) :
    (issues.filter a.alike).map record = List.replicate (issues.countP a.alike) (record a) := by
  rw [List.eq_replicate_iff, List.length_map, List.countP_eq_length_filter]
  refine ⟨rfl, fun r hr => ?_⟩
  obtain ⟨b, hb, rfl⟩ := List.mem_map.1 hr
  exact (record_eq_iff.2 (eq_of_beq (List.mem_filter.1 hb).2)).symm

theorem sameClasses_record {issues issues' : List Issue} (h : issues.Perm issues') :
    Issue.SameClasses record issues issues' := fun a => by
  rw [map_record_filter_alike, map_record_filter_alike, h.countP_eq]

end Report

/-! ## outcomes -/

namespace Outcome

variable (issues : List Issue) (sourceFiles localeFiles : Nat) (exitOnErrors : Bool)

theorem errors_ofIssues :
    (ofIssues issues sourceFiles localeFiles exitOnErrors).errors = Report.errorCount issues :=
  (Issue.sort_perm issues).countP_eq _

theorem warnings_ofIssues :
    (ofIssues issues sourceFiles localeFiles exitOnErrors).warnings =
      Report.warningCount issues := by
  have hperm : (ofIssues issues sourceFiles localeFiles exitOnErrors).issues.Perm issues :=
    Issue.sort_perm issues
  rw [warnings, Report.warningCount, Report.warningCount, hperm.length_eq, Report.errorCount,
    hperm.countP_eq, Report.errorCount]

/-- **The report for programs is canonical.**  The order of issues is a total preorder which tells
apart exactly the issues with different records.  Hence the report, the numbers of errors and
warnings and the status of a check do not depend on the order in which the issues were found. -/
theorem json_canonical :
    (∀ a b : Issue, a.compare b = (b.compare a).swap) ∧
    (∀ a b : Issue, a.notBehind b || b.notBehind a) ∧
    (∀ a b c : Issue, a.notBehind b → b.notBehind c → a.notBehind c) ∧
    (∀ a b : Issue, a.compare b = .eq ↔ Report.record a = Report.record b) ∧
    ∀ (issues issues' : List Issue) (sourceFiles localeFiles : Nat) (exitOnErrors : Bool),
      issues.Perm issues' →
      let outcome := ofIssues issues sourceFiles localeFiles exitOnErrors
      let outcome' := ofIssues issues' sourceFiles localeFiles exitOnErrors
      outcome.json = outcome'.json ∧ outcome.errors = outcome'.errors ∧
        outcome.warnings = outcome'.warnings ∧ outcome.status = outcome'.status := by
  refine ⟨Issue.compare_swap, Issue.notBehind_total, Issue.notBehind_trans,
    fun _ _ => Report.record_eq_iff.symm,
    fun issues issues' sourceFiles localeFiles exitOnErrors h => ?_⟩
  have hrecords := (Report.sameClasses_record h).map_sort_eq
  have herrors : Report.errorCount issues = Report.errorCount issues' := h.countP_eq _
  refine ⟨?_, ?_, ?_, ?_⟩
  · rw [json, json, Report.recordsText, Report.recordsText, ofIssues, ofIssues, hrecords]
  · rw [errors_ofIssues, errors_ofIssues, herrors]
  · rw [warnings_ofIssues, warnings_ofIssues, Report.warningCount, Report.warningCount, herrors,
      h.length_eq]
  · rw [status, status, errors_ofIssues, errors_ofIssues, herrors]
    rfl

/-- Two missing keys whose messages read the same, because of the quotes in one of the keys and in
one of the locales. -/
theorem json_canonical_quotes :
    let context : SourceContext := ⟨"a.js", ⟨1, 1⟩, ""⟩
    let a := Issue.missingKey context "k' does not exist in 'l" "m"
    let b := Issue.missingKey context "k" "l' does not exist in 'm"
    a ≠ b ∧ [a, b].Perm [b, a] ∧
      (ofIssues [a, b] 1 1 true).issues ≠ (ofIssues [b, a] 1 1 true).issues ∧
      (ofIssues [a, b] 1 1 true).json = (ofIssues [b, a] 1 1 true).json := by
  intro context a b
  have hperm : [a, b].Perm [b, a] := .swap b a []
  have hab : a ≠ b := by decide
  obtain ⟨-, -, -, -, hcanonical⟩ := json_canonical
  have hsorted : (ofIssues [a, b] 1 1 true).issues = [a, b] :=
    List.mergeSort_of_pairwise (by decide)
  have hsorted' : (ofIssues [b, a] 1 1 true).issues = [b, a] :=
    List.mergeSort_of_pairwise (by decide)
  refine ⟨hab, hperm, ?_, (hcanonical _ _ 1 1 true hperm).1⟩
  rw [hsorted, hsorted']
  exact fun h => hab (List.head_eq_of_cons_eq h)

end Outcome

end LocaleAudit
