import LocaleAudit.Key.Set
import Mathlib.Data.List.Perm.Basic

/-!
# LocaleAudit.Proofs.Key.Set

Sets of keys are determined by their members.

* `eq_of_ascending` — so are ascending lists;
* `KeySet.eq_of_mem_iff` — so are sets;
* `KeySet.firstFrom?_eq_some_iff` — the first key from a given one on.
-/

namespace LocaleAudit

/-- A key below the first one of an ascending list is not in the list. -/
theorem not_mem_of_lt_head {k a : String} {as : List String} (h : (a :: as).Pairwise (· < ·))
    (hlt : k < a) : k ∉ a :: as := by
  intro hmem
  rcases List.mem_cons.1 hmem with rfl | hmem
  · exact String.lt_irrefl k hlt
  · exact String.lt_asymm hlt ((List.pairwise_cons.1 h).1 k hmem)

/-- Ascending lists with the same members are equal. -/
theorem eq_of_ascending {xs ys : List String} (hx : xs.Pairwise (· < ·)) (hy : ys.Pairwise (· < ·))
    (h : ∀ k, k ∈ xs ↔ k ∈ ys) : xs = ys := by
  have nodup {zs : List String} (hz : zs.Pairwise (· < ·)) : zs.Nodup := by
    refine hz.imp ?_
    rintro a b hlt rfl
    exact String.lt_irrefl a hlt
  have hperm : xs.Perm ys := (List.perm_ext_iff_of_nodup (nodup hx) (nodup hy)).2 h
  exact hperm.eq_of_pairwise (fun a b _ _ hab hba => absurd hba (String.lt_asymm hab)) hx hy

/-- Sets with the same members are equal. -/
theorem KeySet.eq_of_mem_iff {s t : KeySet} (h : ∀ k, k ∈ s ↔ k ∈ t) : s = t := by
  have hlist : s.toList = t.toList := eq_of_ascending s.sorted t.sorted h
  cases s
  cases t
  simpa using hlist

@[simp] theorem KeySet.contains_iff {s : KeySet} {k : String} : s.contains k = true ↔ k ∈ s :=
  decide_eq_true_iff

/-- **The first key from a given one on** is the least of those that are not before it. -/
theorem KeySet.firstFrom?_eq_some_iff {s : KeySet} {start k : String} :
    s.firstFrom? start = some k ↔ k ∈ s ∧ ¬ k < start ∧ ∀ l ∈ s, ¬ l < start → ¬ l < k := by
  rw [firstFrom?, List.find?_eq_some_iff_append]
  constructor
  · rintro ⟨hk, before, behind, hs, hbefore⟩
    have hsorted := s.sorted
    rw [hs, List.pairwise_append, List.pairwise_cons] at hsorted
    refine ⟨mem_iff.2 (by simp [hs]), of_decide_eq_true hk, fun l hl hle => ?_⟩
    rw [mem_iff, hs, List.mem_append, List.mem_cons] at hl
    rcases hl with hl | rfl | hl
    · have hnot := hbefore l hl
      simp [hle] at hnot
    · exact String.lt_irrefl l
    · exact String.lt_asymm (hsorted.2.1.1 l hl)
  · rintro ⟨hk, hle, hleast⟩
    obtain ⟨before, behind, hs⟩ := List.append_of_mem (mem_iff.1 hk)
    refine ⟨decide_eq_true hle, before, behind, hs, fun l hl => ?_⟩
    have hsorted := s.sorted
    rw [hs, List.pairwise_append] at hsorted
    have hlt : l < k := hsorted.2.2 l hl k List.mem_cons_self
    have hbefore : ¬ ¬ l < start := fun hle => hleast l (mem_iff.2 (by simp [hs, hl])) hle hlt
    simpa using hbefore

theorem KeySet.isSome_firstFrom? {s : KeySet} {start l : String} (hl : l ∈ s)
    (hle : ¬ l < start) : (s.firstFrom? start).isSome = true :=
  List.find?_isSome.2 ⟨l, mem_iff.1 hl, decide_eq_true hle⟩

end LocaleAudit
