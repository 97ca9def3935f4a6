import LocaleAudit.Proofs.FileTree.Removal
import LocaleAudit.Source.Scan

/-!
# LocaleAudit.Proofs.Source.Scan

What is scanned, in a tree and in the same tree without a file.

* `files_remove` — a file that is not scanned does not matter for what is.
-/

namespace LocaleAudit.Source

open Place Entry

/-- The file that the names lead to is scanned. -/
def ScansAt (tree : Entry) (o : ScanOptions) (names : List String) : Prop :=
  ∃ start, find? tree o.directory = some start ∧ ∃ p ∈ start :: start.descendants,
    p.location? = some names ∧ (scannedFile? o start p).isSome

instance (tree : Entry) (o : ScanOptions) (names : List String) :
    Decidable (ScansAt tree o names) :=
  inferInstanceAs (Decidable (∃ start ∈ find? tree o.directory, ∃ p ∈ start :: start.descendants,
    p.location? = some names ∧ (scannedFile? o start p).isSome))

section removal

variable {tree : Entry} {gone : List String} (hgone : Removal tree gone) {o : ScanOptions}
include hgone

/-- A place and its counterpart are scanned as one file. -/
theorem scannedFile?_counterpart? {start start' p p' : Place} (hstart : Stands tree start)
    (hstart' : start.counterpart? (remove gone tree) = some start') (hp : Stands tree p)
    (hp' : p.counterpart? (remove gone tree) = some p') :
    scannedFile? o start' p' = scannedFile? o start p := by
  obtain ⟨hpath, hthinned⟩ := thinned_of_counterpart? hgone hp hp'
  rw [scannedFile?, scannedFile?, pathBelow, pathBelow, hthinned.content, hpath,
    (thinned_of_counterpart? hgone hstart hstart').1]

/-- **A file that is not scanned** does not matter for what is. -/
theorem files_remove (hscans : ¬ ScansAt tree o gone) :
    (scan (remove gone tree) o).files = (scan tree o).files := by
  rw [scan, scan, find?_remove hgone]
  cases hfind : find? tree o.directory with
  | none => rfl
  | some start =>
      have hstart : Stands tree start := .of_walk hfind
      have hfollows : Follows (remove gone tree) (fun p => p :: p.descendants) start :=
        Follows.self.append (follows_descendants hgone hstart)
      have hstands : ∀ p ∈ start :: start.descendants, Stands tree p :=
        List.forall_mem_cons.2 ⟨hstart, hstart.of_mem_descendants hgone.proper⟩
      have hnot (p : Place) (hp : p ∈ start :: start.descendants)
          (hnone : p.counterpart? (remove gone tree) = none) : scannedFile? o start p = none := by
        have hlocation := (counterpart?_eq_none_iff hgone (hstands p hp)).1 hnone
        rw [← Option.not_isSome_iff_eq_none]
        exact fun hsome => hscans ⟨start, hfind, p, hp, hlocation, hsome⟩
      rw [Follows] at hfollows
      rw [Option.bind_some]
      cases hstart' : start.counterpart? (remove gone tree) with
      | none =>
          rw [hstart'] at hfollows
          have hnone := List.filterMap_eq_nil_iff.1 hfollows
          exact (List.filterMap_eq_nil_iff.2 fun p hp => hnot p hp (hnone p hp)).symm
      | some start' =>
          rw [hstart', Option.toList_some, List.flatMap_singleton] at hfollows
          dsimp only
          rw [← hfollows, List.filterMap_filterMap]
          refine List.filterMap_congr fun p hp => ?_
          cases hp' : p.counterpart? (remove gone tree) with
          | none => exact (hnot p hp hp').symm
          | some p' =>
              exact scannedFile?_counterpart? hgone hstart hstart' (hstands p hp) hp'

end removal

end LocaleAudit.Source
