import LocaleAudit.Issue

/-!
# LocaleAudit.Proofs.Issue

The order of issues.  It is a total preorder, and issues that it does not tell apart are alike.
Sorting is stable: each class of alike issues keeps its order.  A sorted list is the classes one
behind the other, so that it is known once the classes are.

* `notBehind_total`, `notBehind_trans` — the order is a total preorder;
* `filter_alike_sort` — sorting leaves each class of alike issues as it is;
* `SameClasses.map_sort_eq` — what is seen of sorted issues is settled by what is seen of each class.
-/

namespace LocaleAudit.Issue

/-! ## the order -/

/-- Issues are compared by file, line, column, rule and message, in this order. -/
instance : Std.TransCmp Issue.compare :=
  inferInstanceAs <| Std.TransCmp <|
    compareLex (compareOn file) <|
    compareLex (compareOn (·.position.line)) <|
    compareLex (compareOn (·.position.col)) <|
    compareLex (compareOn (·.rule.rank)) (compareOn message)

theorem compare_eq_eq_iff {a b : Issue} :
    a.compare b = .eq ↔
      a.file = b.file ∧ a.position.line = b.position.line ∧ a.position.col = b.position.col ∧
        a.rule = b.rule ∧ a.message = b.message := by
  have hrule : a.rule.rank = b.rule.rank ↔ a.rule = b.rule := by
    cases a.rule <;> cases b.rule <;> decide
  have htext (s t : String) : compareOfLessAndEq s t = .eq ↔ s = t :=
    Std.compare_eq_iff_eq (a := s) (b := t)
  rw [Issue.compare, Ordering.then_eq_eq, Ordering.then_eq_eq, Ordering.then_eq_eq,
    Ordering.then_eq_eq, htext, htext, Nat.compare_eq_eq, Nat.compare_eq_eq, Nat.compare_eq_eq,
    hrule]

theorem notBehind_eq_isLE (a b : Issue) : a.notBehind b = (a.compare b).isLE := by
  rw [notBehind]
  cases a.compare b <;> rfl

theorem compare_swap (a b : Issue) : a.compare b = (b.compare a).swap :=
  Std.OrientedCmp.eq_swap

theorem notBehind_total (a b : Issue) : a.notBehind b || b.notBehind a := by
  rw [notBehind_eq_isLE, notBehind_eq_isLE, compare_swap b a]
  cases a.compare b <;> rfl

theorem notBehind_trans (a b c : Issue) (hab : a.notBehind b) (hbc : b.notBehind c) :
    a.notBehind c := by
  rw [notBehind_eq_isLE] at *
  exact Std.TransCmp.isLE_trans hab hbc

theorem notBehind_self (a : Issue) : a.notBehind a := by
  rw [← Bool.or_self (a.notBehind a)]
  exact notBehind_total a a

/-- The order does not tell two issues apart. -/
def alike (a b : Issue) : Bool := a.compare b == .eq

theorem alike_iff {a b : Issue} : a.alike b ↔ a.notBehind b ∧ b.notBehind a := by
  rw [alike, notBehind_eq_isLE, notBehind_eq_isLE, compare_swap b a]
  cases a.compare b <;> simp

theorem alike_self (a : Issue) : a.alike a := alike_iff.2 ⟨notBehind_self a, notBehind_self a⟩

/-- Alike issues are in the same class. -/
theorem alike_congr {a b c : Issue} (h : b.alike c) : a.alike b = a.alike c := by
  obtain ⟨hbc, hcb⟩ := alike_iff.1 h
  rw [Bool.eq_iff_iff, alike_iff, alike_iff]
  exact ⟨fun ⟨hab, hba⟩ => ⟨notBehind_trans _ _ _ hab hbc, notBehind_trans _ _ _ hcb hba⟩,
    fun ⟨hac, hca⟩ => ⟨notBehind_trans _ _ _ hac hcb, notBehind_trans _ _ _ hbc hca⟩⟩

/-! ## sorting -/

/-- Issues in order. -/
def Sorted (issues : List Issue) : Prop := issues.Pairwise fun a b => a.notBehind b

theorem sorted_sort (issues : List Issue) : Sorted (sort issues) :=
  List.pairwise_mergeSort notBehind_trans notBehind_total issues

theorem sort_perm (issues : List Issue) : (sort issues).Perm issues :=
  List.mergeSort_perm issues notBehind

/-- **Sorting is stable**: alike issues keep their order. -/
theorem filter_alike_sort (a : Issue) (issues : List Issue) :
    (sort issues).filter a.alike = issues.filter a.alike := by
  have hclass : Sorted (issues.filter a.alike) := by
    refine List.pairwise_of_forall_mem_list fun b hb c hc => ?_
    have hba := (alike_iff.1 (List.mem_filter.1 hb).2).2
    have hac := (alike_iff.1 (List.mem_filter.1 hc).2).1
    exact notBehind_trans b a c hba hac
  have hsublist : (issues.filter a.alike).Sublist (sort issues) :=
    List.sublist_mergeSort notBehind_trans notBehind_total hclass List.filter_sublist
  have hfiltered : (issues.filter a.alike).Sublist ((sort issues).filter a.alike) := by
    simpa using hsublist.filter a.alike
  exact (hfiltered.eq_of_length ((sort_perm issues).filter a.alike).length_eq.symm).symm

theorem Sorted.head_notBehind {a b : Issue} {issues : List Issue} (h : Sorted (a :: issues))
    (hb : b ∈ a :: issues) : a.notBehind b := by
  rcases List.mem_cons.1 hb with rfl | hb
  · exact notBehind_self b
  · exact List.rel_of_pairwise_cons h hb

section classes

variable {α : Type} {f : Issue → α} {l l' : List Issue}

/-- What is seen of each class of alike issues is the same in two lists. -/
def SameClasses (f : Issue → α) (l l' : List Issue) : Prop :=
  ∀ a : Issue, (l.filter a.alike).map f = (l'.filter a.alike).map f

theorem SameClasses.symm (h : SameClasses f l l') : SameClasses f l' l := fun a => (h a).symm

/-- An issue of one list stands for its class, so that the other list has one like it. -/
theorem SameClasses.exists_alike (h : SameClasses f l l') {a : Issue} (ha : a ∈ l) :
    ∃ b ∈ l', a.alike b := by
  have hseen : f a ∈ (l'.filter a.alike).map f := by
    rw [← h a]
    exact List.mem_map_of_mem (List.mem_filter.2 ⟨ha, alike_self a⟩)
  obtain ⟨b, hb, -⟩ := List.mem_map.1 hseen
  exact ⟨b, List.mem_filter.1 hb⟩

/-- The first issues of two lists in order are of the same class. -/
theorem SameClasses.alike_head {a b : Issue} {t t' : List Issue}
    (h : SameClasses f (a :: t) (b :: t')) (ht : Sorted (a :: t)) (ht' : Sorted (b :: t')) :
    a.alike b := by
  obtain ⟨c, hc, hac⟩ := h.exists_alike List.mem_cons_self
  obtain ⟨d, hd, hbd⟩ := h.symm.exists_alike List.mem_cons_self
  have hab := notBehind_trans _ _ _ (ht.head_notBehind hd) (alike_iff.1 hbd).2
  have hba := notBehind_trans _ _ _ (ht'.head_notBehind hc) (alike_iff.1 hac).2
  exact alike_iff.2 ⟨hab, hba⟩

theorem SameClasses.of_cons {a b : Issue} {t t' : List Issue}
    (h : SameClasses f (a :: t) (b :: t')) (hab : a.alike b) :
    f a = f b ∧ SameClasses f t t' := by
  have hclass := h a
  rw [List.filter_cons_of_pos (alike_self a), List.filter_cons_of_pos hab, List.map_cons,
    List.map_cons, List.cons.injEq] at hclass
  refine ⟨hclass.1, fun c => ?_⟩
  have hrest := h c
  rw [List.filter_cons, List.filter_cons, alike_congr hab] at hrest
  split at hrest
  · exact List.tail_eq_of_cons_eq hrest
  · exact hrest

/-- What is seen of issues in order is settled by what is seen of each class. -/
theorem SameClasses.map_eq (h : SameClasses f l l') (hl : Sorted l) (hl' : Sorted l') :
    l.map f = l'.map f := by
  induction l generalizing l' with
  | nil =>
      cases l' with
      | nil => rfl
      | cons b t' =>
          obtain ⟨c, hc, -⟩ := h.symm.exists_alike List.mem_cons_self
          contradiction
  | cons a t ih =>
      cases l' with
      | nil =>
          obtain ⟨c, hc, -⟩ := h.exists_alike List.mem_cons_self
          contradiction
      | cons b t' =>
          obtain ⟨hseen, hrest⟩ := h.of_cons (h.alike_head hl hl')
          rw [List.map_cons, List.map_cons, hseen, ih hrest hl.tail hl'.tail]

/-- **What is seen of sorted issues** is settled by what is seen of each class. -/
theorem SameClasses.map_sort_eq (h : SameClasses f l l') : (sort l).map f = (sort l').map f := by
  have hsorted : SameClasses f (sort l) (sort l') := fun a => by
    rw [filter_alike_sort, filter_alike_sort, h a]
  exact hsorted.map_eq (sorted_sort l) (sorted_sort l')

end classes

end LocaleAudit.Issue
