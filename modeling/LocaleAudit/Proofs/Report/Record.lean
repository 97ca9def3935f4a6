import LocaleAudit.Proofs.Json.RoundTrip
import LocaleAudit.Report.Record

/-!
# LocaleAudit.Proofs.Report.Record

The report for programs against the parser.  A record keeps everything in it, as its names are
distinct and its numbers are small enough, so that the pretty text of all records is read back,
whatever stands in the names of files, keys and locales and in the messages of failures.

* `exact_record`, `height_record` — a record is kept by its text, and it is two levels high;
* `parse_recordsText` — the report is parsed to the array of the records;
* `records_read_back` — what is found in it.
-/

namespace LocaleAudit.Report

open Json

/-- Lines and columns are counted in words of 64 bits. -/
def FitsWords (i : Issue) : Prop := i.position.line < 2 ^ 64 ∧ i.position.col < 2 ^ 64

/-! ## records -/

/-- **A record is kept** by its text. -/
theorem exact_record {i : Issue} (h : FitsWords i) : (record i).Exact := by
  have count {n : Nat} (hn : n < 2 ^ 64) : (Value.number (.whole n)).Exact :=
    .number (by omega) (by omega)
  have hlocation : (Value.object [("line", .number (.whole i.position.line)),
      ("column", .number (.whole i.position.col))]).Exact :=
    .object (by decide : ["line", "column"].Nodup)
      (List.forall_mem_cons.2 ⟨count h.1, List.forall_mem_singleton.2 (count h.2)⟩)
  refine .object (by decide : ["file", "rule", "severity", "message", "location"].Nodup) ?_
  simp only [List.forall_mem_cons]
  exact ⟨.string _, .string _, .string _, .string _, hlocation, by simp⟩

theorem height_record (i : Issue) : (record i).height = 2 := rfl

/-! ## the report -/

/-- The report is parsed to the array of the records. -/
theorem parse_recordsText {issues : List Issue} (h : ∀ i ∈ issues, FitsWords i) :
    ∃ n, parse (recordsText issues) = .ok n ∧ n.toValue = .array (issues.map record) := by
  have hexact : (Value.array (issues.map record)).Exact :=
    .array (List.forall_mem_map.2 fun i hi => exact_record (h i hi))
  have hheight : heightOfValues (issues.map record) ≤ 3 :=
    heightOfValues_le (List.forall_mem_map.2 fun i _ => Nat.le_of_eq (height_record i))
  have hnewline : Grammar.Blanks ['\n'] := List.forall_mem_singleton.2 (.inr (.inl rfl))
  exact (written_pretty hexact).parse_append hnewline (Nat.le_trans hheight (by decide))

/-- A value tells of an issue: it is an object with these members, among which the place is an
object again. -/
structure Tells (i : Issue) (v : Value) : Prop where
  isObject : v.isObject = true
  file : v.members.lookup "file" = some (.string i.file)
  rule : v.members.lookup "rule" = some (.string i.rule.name)
  severity : v.members.lookup "severity" = some (.string i.severity.name)
  message : v.members.lookup "message" = some (.string i.message)
  location : ∃ place, v.members.lookup "location" = some place ∧
    place.members.lookup "line" = some (.number (.whole i.position.line)) ∧
    place.members.lookup "column" = some (.number (.whole i.position.col))

theorem tells_record (i : Issue) : Tells i (record i) :=
  ⟨rfl, rfl, rfl, rfl, rfl, _, rfl, rfl, rfl⟩

/-- **The report for programs is read back**: it is parsed to an array with one object for each
issue, in the same order, and each object tells of its issue. -/
theorem records_read_back {issues : List Issue} (h : ∀ i ∈ issues, FitsWords i) :
    ∃ n records, parse (recordsText issues) = .ok n ∧ n.toValue = .array records ∧
      List.Forall₂ Tells issues records := by
  obtain ⟨n, hparse, hvalue⟩ := parse_recordsText h
  refine ⟨n, issues.map record, hparse, hvalue, ?_⟩
  exact List.forall₂_map_right_iff.2 (List.forall₂_same.2 fun i _ => tells_record i)

/-- An issue whose file and key need escapes, at the last column that can be counted. -/
def awkwardIssue : Issue :=
  .unusedKey ⟨"a\\b\".json", ⟨3, 2 ^ 64 - 1⟩, "k\n\x01é", "en", "1"⟩

theorem records_read_back_awkward :
    (∀ i ∈ [awkwardIssue], FitsWords i) ∧
      ∃ n r place, parse (recordsText [awkwardIssue]) = .ok n ∧ n.toValue = .array [r] ∧
        r.members.lookup "file" = some (.string "a\\b\".json") ∧
        r.members.lookup "message" = some (.string "unused 'k\n\x01é' key") ∧
        r.members.lookup "location" = some place ∧
        place.members.lookup "column" = some (.number (.whole (2 ^ 64 - 1))) := by
  have hcount : ∀ i ∈ [awkwardIssue], FitsWords i :=
    List.forall_mem_singleton.2 ⟨by decide, by decide⟩
  obtain ⟨n, records, hparse, hvalue, hall⟩ := records_read_back hcount
  cases hall with
  | cons htells hnil =>
      cases hnil
      obtain ⟨place, hplace, -, hcolumn⟩ := htells.location
      exact ⟨hcount, n, _, place, hparse, hvalue, htells.file, htells.message, hplace, hcolumn⟩

end LocaleAudit.Report
