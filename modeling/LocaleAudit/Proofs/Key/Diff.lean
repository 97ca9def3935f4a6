import Mathlib.Data.List.Nodup
import LocaleAudit.Key.Diff
import LocaleAudit.Proofs.Key.Set
import LocaleAudit.Proofs.Text.Utf8

/-!
# LocaleAudit.Proofs.Key.Diff

What the difference between two sets of keys says, in terms of the sets alone.  The walk through
both lists is described by what it tells of a key of one list that the other list does not have, and
the search for a conflict by the place where two related keys disagree.

* `hasBelow_iff` — keys below a key stand together;
* `conflict?_eq_some_iff`, `conflict?_eq_none_iff` — where a key disagrees with a set;
* `mem_walk`, `nodup_walk`, `mem_diff_iff` — what the walk tells, and what the differences are;
* `diff_iff` — every difference, its condition and its place in the order.
-/

namespace LocaleAudit.Key

open Text

/-! ## related keys -/

/-- `p` is an ancestor of `q`: `q` starts with `p` and a dot. -/
def IsAncestor (p q : String) : Prop := IsBelow q.toList p.toList

/-- One of two keys is an ancestor of the other. -/
def Related (p q : String) : Prop := IsAncestor p q ∨ IsAncestor q p

/-- Where a key `q` disagrees with a set about the shape: at the shortest ancestor of `q` in the
set, or at `q` itself, if the set has no ancestor of `q` and something below it. -/
def DisagreesAt (other : KeySet) (q p : String) : Prop :=
  (p ∈ other ∧ IsAncestor p q ∧ ∀ a ∈ other, IsAncestor a q → p.length ≤ a.length) ∨
    (p = q ∧ (∀ a ∈ other, ¬ IsAncestor a q) ∧ ∃ k ∈ other, IsAncestor q k)

/-- The ancestors of a key in the order of their lengths. -/
theorem pairwise_ancestors (key : List Char) :
    (ancestors key).Pairwise fun a b => a.length < b.length := by
  induction key with
  | nil => exact .nil
  | cons c cs ih =>
      have hmap : ((ancestors cs).map (c :: ·)).Pairwise fun a b => a.length < b.length := by
        rw [List.pairwise_map]
        exact ih.imp fun h => by simpa using h
      rw [ancestors]
      split
      · rw [List.singleton_append]
        refine List.pairwise_cons.2 ⟨fun a ha => ?_, hmap⟩
        obtain ⟨b, -, rfl⟩ := List.mem_map.1 ha
        simp
      · exact hmap

/-- The ancestors of a key as strings. -/
theorem mem_map_ancestors {p key : String} :
    p ∈ (ancestors key.toList).map String.ofList ↔ IsAncestor p key := by
  rw [List.mem_map, IsAncestor, ← mem_ancestors]
  constructor
  · rintro ⟨a, ha, rfl⟩
    rwa [String.toList_ofList]
  · intro h
    exact ⟨p.toList, h, String.ofList_toList⟩

/-- The search for an ancestor in a set finds the shortest one. -/
theorem find?_ancestors_eq_some_iff {other : KeySet} {key p : String} :
    ((ancestors key.toList).map String.ofList).find? other.contains = some p ↔
      p ∈ other ∧ IsAncestor p key ∧ ∀ a ∈ other, IsAncestor a key → p.length ≤ a.length := by
  have hsorted : ((ancestors key.toList).map String.ofList).Pairwise
      fun a b => a.length < b.length := by
    rw [List.pairwise_map]
    exact (pairwise_ancestors key.toList).imp fun h => by simpa using h
  rw [List.find?_eq_some_iff_append]
  constructor
  · rintro ⟨hp, as, bs, heq, has⟩
    have hanc : IsAncestor p key := mem_map_ancestors.1 (by simp [heq])
    refine ⟨of_decide_eq_true hp, hanc, fun a ha hak => ?_⟩
    have hmem : a ∈ as ++ p :: bs := heq ▸ mem_map_ancestors.2 hak
    rw [heq, List.pairwise_append, List.pairwise_cons] at hsorted
    rw [List.mem_append, List.mem_cons] at hmem
    rcases hmem with hmem | rfl | hmem
    · have hnot := has a hmem
      simp [KeySet.contains, ha] at hnot
    · exact Nat.le_refl _
    · exact Nat.le_of_lt (hsorted.2.1.1 a hmem)
  · rintro ⟨hp, hanc, hshort⟩
    obtain ⟨as, bs, heq⟩ := List.append_of_mem (mem_map_ancestors.2 hanc)
    refine ⟨decide_eq_true hp, as, bs, heq, fun a ha => ?_⟩
    have hak : IsAncestor a key := mem_map_ancestors.1 (by simp [heq, ha])
    rw [heq, List.pairwise_append] at hsorted
    have hlt := hsorted.2.2 a ha p List.mem_cons_self
    simp only [KeySet.contains, Bool.not_eq_true', decide_eq_false_iff_not]
    intro hmem
    have hle := hshort a hmem hak
    omega

theorem find?_ancestors_eq_none_iff {other : KeySet} {key : String} :
    ((ancestors key.toList).map String.ofList).find? other.contains = none ↔
      ∀ a ∈ other, ¬ IsAncestor a key := by
  rw [List.find?_eq_none]
  constructor
  · intro h a ha hak
    exact h a (mem_map_ancestors.2 hak) (decide_eq_true ha)
  · intro h a hak ha
    exact h a (of_decide_eq_true ha) (mem_map_ancestors.1 hak)

/-- What stands between a text and one that starts with it starts with it too. -/
theorem isPrefix_of_between {text between start : List Char} (h : start <+: text)
    (hlo : ¬ between < start) (hhi : ¬ text < between) : start <+: between := by
  induction start generalizing text between with
  | nil => exact List.nil_prefix
  | cons c start ih =>
      obtain ⟨rest, rfl⟩ := h
      cases between with
      | nil => exact absurd (List.nil_lt_cons c start) hlo
      | cons d between =>
          rw [List.cons_lt_cons_iff, not_or, not_and] at hlo
          rw [List.cons_append, List.cons_lt_cons_iff, not_or, not_and] at hhi
          obtain rfl : d = c := Char.le_antisymm (Char.not_lt.1 hhi.1) (Char.not_lt.1 hlo.1)
          exact List.cons_prefix_cons.2 ⟨rfl, ih ⟨rest, rfl⟩ (hlo.2 rfl) (hhi.2 rfl)⟩

/-- **Keys below a key stand together**, so that the first key from there on tells whether there
are any. -/
theorem hasBelow_iff {keys : KeySet} {key : String} :
    hasBelow keys key = true ↔ ∃ k ∈ keys, IsAncestor key k := by
  have hstart : (key ++ ".").toList = key.toList ++ ['.'] := String.toList_append
  simp only [hasBelow, Option.any_eq_true, List.isPrefixOf_iff_prefix, hstart]
  constructor
  · rintro ⟨k, hk, hprefix⟩
    exact ⟨k, (KeySet.firstFrom?_eq_some_iff.1 hk).1, hprefix⟩
  · rintro ⟨l, hl, hbelow⟩
    have hle : ¬ l < key ++ "." := fun hlt => by
      have hlist : l.toList < (key ++ ".").toList := hlt
      rw [hstart] at hlist
      exact List.not_lt.2 hbelow.le hlist
    obtain ⟨k, hk⟩ := Option.isSome_iff_exists.1 (KeySet.isSome_firstFrom? hl hle)
    obtain ⟨-, hlo, hleast⟩ := KeySet.firstFrom?_eq_some_iff.1 hk
    refine ⟨k, hk, isPrefix_of_between hbelow ?_ (hleast l hl hle)⟩
    rw [← hstart]
    exact hlo

/-- **The place of a conflict** is where the key disagrees with the set. -/
theorem conflict?_eq_some_iff {other : KeySet} {q p : String} :
    conflict? other q = some p ↔ DisagreesAt other q p := by
  rw [conflict?, DisagreesAt, ← find?_ancestors_eq_some_iff, ← find?_ancestors_eq_none_iff,
    ← hasBelow_iff]
  cases h : ((ancestors q.toList).map String.ofList).find? other.contains with
  | some a => simp
  | none =>
      by_cases hb : hasBelow other q = true
      · simp [hb, eq_comm]
      · simp [hb]

/-- A key does not disagree with a set exactly if nothing in the set is related to it. -/
theorem conflict?_eq_none_iff {other : KeySet} {q : String} :
    conflict? other q = none ↔ ∀ k ∈ other, ¬ Related k q := by
  have hsplit : (∀ k ∈ other, ¬ Related k q) ↔
      (∀ a ∈ other, ¬ IsAncestor a q) ∧ ¬ ∃ k ∈ other, IsAncestor q k := by
    simp only [Related, not_or, not_exists, not_and]
    exact ⟨fun h => ⟨fun k hk => (h k hk).1, fun k hk => (h k hk).2⟩,
      fun h k hk => ⟨h.1 k hk, h.2 k hk⟩⟩
  rw [hsplit, ← find?_ancestors_eq_none_iff, ← hasBelow_iff, conflict?]
  cases h : ((ancestors q.toList).map String.ofList).find? other.contains with
  | some a => simp
  | none => simp

/-! ## the walk -/

/-- What becomes of a key that only one side has, if it is told as `single` where nothing on the
other side is related to it. -/
def lone (single : String → Change) (other : KeySet) (key : String) : Change :=
  match conflict? other key with
  | some place => .changed place
  | none => single key

/-- What becomes of a key that only the expected side has. -/
def onlyExpected (actual : KeySet) (key : String) : Change := lone .removed actual key

/-- What becomes of a key that only the other side has. -/
def onlyActual (expected : KeySet) (key : String) : Change := lone .added expected key

/-- A key that only one side has is told as it is, or as a conflict with the other side. -/
theorem eq_lone_iff {single : String → Change} {other : KeySet} {key : String} {c : Change} :
    c = lone single other key ↔
      (c = single key ∧ ∀ k ∈ other, ¬ Related k key) ∨
        ∃ p, c = .changed p ∧ DisagreesAt other key p := by
  simp only [← conflict?_eq_none_iff, ← conflict?_eq_some_iff, lone]
  cases conflict? other key with
  | none => simp
  | some place => simp

section tell

variable {single : String → Change} (hsingle : ∀ k p, single k ≠ .changed p) {other told : KeySet}
  {key : String} {c : Change}
include hsingle

theorem mem_tell :
    c ∈ (tell single other told key).1 ↔
      c = lone single other key ∧ ∀ p ∈ told, c ≠ .changed p := by
  rw [tell, lone]
  cases conflict? other key with
  | none =>
      dsimp only
      rw [List.mem_singleton]
      exact ⟨fun h => ⟨h, fun p _ hp => hsingle key p (h.symm.trans hp)⟩, And.left⟩
  | some place =>
      dsimp only
      split
      · rename_i htold
        have hmem := KeySet.contains_iff.1 htold
        exact ⟨fun h => absurd h List.not_mem_nil, fun h => absurd h.1 (h.2 place hmem)⟩
      · rename_i htold
        rw [List.mem_singleton]
        refine ⟨fun h => ⟨h, fun p hp heq => htold ?_⟩, And.left⟩
        obtain rfl := Change.changed.inj (h.symm.trans heq)
        exact KeySet.contains_iff.2 hp

theorem mem_told {p : String} :
    p ∈ (tell single other told key).2 ↔ p ∈ told ∨ lone single other key = .changed p := by
  rw [tell, lone]
  cases conflict? other key with
  | none => simp [hsingle]
  | some place =>
      dsimp only
      split
      · rename_i htold
        have hmem := KeySet.contains_iff.1 htold
        exact ⟨.inl, fun h => h.elim id fun heq => Change.changed.inj heq ▸ hmem⟩
      · rw [KeySet.mem_insert, or_comm, Change.changed.injEq, eq_comm]

/-- What is told of a key now, or is told later and not of a conflict that has been told of. -/
theorem tell_or_iff {later : Prop} :
    (c ∈ (tell single other told key).1 ∨
        later ∧ ∀ p ∈ (tell single other told key).2, c ≠ .changed p) ↔
      (c = lone single other key ∨ later) ∧ ∀ p ∈ told, c ≠ .changed p := by
  simp only [mem_tell hsingle, mem_told hsingle]
  constructor
  · rintro (⟨heq, hnew⟩ | ⟨hlater, hnew⟩)
    · exact ⟨.inl heq, hnew⟩
    · exact ⟨.inr hlater, fun p hp => hnew p (.inl hp)⟩
  · rintro ⟨heq | hlater, hnew⟩
    · exact .inl ⟨heq, hnew⟩
    · by_cases heq : c = lone single other key
      · exact .inl ⟨heq, hnew⟩
      · refine .inr ⟨hlater, fun p hp => hp.elim (hnew p) fun hchanged hc => heq ?_⟩
        exact hc.trans hchanged.symm

/-- What is told of now, and is none of the conflicts that have been told of by then, is a key as it
is. -/
theorem eq_single_of_mem_tell (hc : c ∈ (tell single other told key).1)
    (hnew : ∀ p ∈ (tell single other told key).2, c ≠ .changed p) : c = single key := by
  have heq := ((mem_tell hsingle).1 hc).1
  rcases eq_lone_iff.1 heq with ⟨hkey, -⟩ | ⟨p, hp, -⟩
  · exact hkey
  · exact absurd hp (hnew p ((mem_told hsingle).2 (.inr (heq.symm.trans hp))))

omit hsingle in
theorem nodup_tell : (tell single other told key).1.Nodup := by
  rw [tell]
  cases conflict? other key with
  | none => exact List.nodup_singleton _
  | some place =>
      dsimp only
      split
      · exact .nil
      · exact List.nodup_singleton _

omit hsingle in
/-- What is chosen from what is told of a key, if conflicts are not chosen. -/
theorem filterMap_tell_sublist {choose : Change → Option String}
    (h : ∀ p, choose (.changed p) = none) :
    ((tell single other told key).1.filterMap choose).Sublist (choose (single key)).toList := by
  rw [tell]
  cases conflict? other key with
  | none => cases hkey : choose (single key) <;> simp [hkey]
  | some place =>
      dsimp only
      split
      · exact List.nil_sublist _
      · simp [h]

end tell

/-- **The walk** tells of each key of one list that the other does not have, and of nothing else,
but of no conflict that has been told of. -/
theorem mem_walk {E A told : KeySet} {c : Change} {es as : List String}
    (hes : es.Pairwise (· < ·)) (has : as.Pairwise (· < ·)) :
    c ∈ walk E A told es as ↔
      ((∃ e ∈ es, e ∉ as ∧ c = onlyExpected A e) ∨ (∃ a ∈ as, a ∉ es ∧ c = onlyActual E a)) ∧
        ∀ p ∈ told, c ≠ .changed p := by
  have hremoved : ∀ k p, Change.removed k ≠ .changed p := fun _ _ => nofun
  have hadded : ∀ k p, Change.added k ≠ .changed p := fun _ _ => nofun
  -- the smaller of the two heads is in neither tail and not in the other list
  fun_induction walk E A told es as with
  | case1 told es a as ih =>
      have hE := List.pairwise_cons.1 hes
      have hA := List.pairwise_cons.1 has
      have hes' : ∀ e ∈ es, e ≠ a := fun e he heq => String.lt_irrefl a (heq ▸ hE.1 e he)
      have has' : ∀ b ∈ as, b ≠ a := fun b hb heq => String.lt_irrefl a (heq ▸ hA.1 b hb)
      refine (ih hE.2 hA.2).trans (and_congr_left' ?_)
      grind
  | case2 told e es a as hne hlt now ih =>
      have hE := List.pairwise_cons.1 hes
      have hnot := not_mem_of_lt_head has hlt
      have has' : ∀ b ∈ a :: as, b ≠ e := fun b hb heq => hnot (heq ▸ hb)
      rw [List.mem_append]
      refine (or_congr_right (ih hE.2 has)).trans ?_
      rw [tell_or_iff hremoved, ← onlyExpected]
      refine and_congr_left' ?_
      grind
  | case3 told e es a as hne hnlt now ih =>
      have hA := List.pairwise_cons.1 has
      have hlt : a < e := Std.lt_of_le_of_ne (String.not_lt.1 hnlt) (Ne.symm hne)
      have hnot := not_mem_of_lt_head hes hlt
      have hes' : ∀ b ∈ e :: es, b ≠ a := fun b hb heq => hnot (heq ▸ hb)
      rw [List.mem_append]
      refine (or_congr_right (ih hes hA.2)).trans ?_
      rw [tell_or_iff hadded, ← onlyActual]
      refine and_congr_left' ?_
      grind
  | case4 told e es now ih =>
      rw [List.mem_append]
      refine (or_congr_right (ih (List.pairwise_cons.1 hes).2 .nil)).trans ?_
      rw [tell_or_iff hremoved, ← onlyExpected]
      simp
  | case5 told a as now ih =>
      rw [List.mem_append]
      refine (or_congr_right (ih .nil (List.pairwise_cons.1 has).2)).trans ?_
      rw [tell_or_iff hadded, ← onlyActual]
      simp
  | case6 told => simp

/-- A key of the first list that is told of as it is does not come again. -/
theorem disjoint_tell_removed_walk {E A told : KeySet} {e : String} {es as : List String}
    (hes : (e :: es).Pairwise (· < ·)) (has : as.Pairwise (· < ·)) :
    List.Disjoint (tell .removed A told e).1 (walk E A (tell .removed A told e).2 es as) := by
  intro c hc hlater
  obtain ⟨hlater, hnew⟩ := (mem_walk (List.pairwise_cons.1 hes).2 has).1 hlater
  have hremoved : ∀ k p, Change.removed k ≠ .changed p := fun _ _ => nofun
  obtain rfl := eq_single_of_mem_tell hremoved hc hnew
  rcases hlater with ⟨e', he, -, heq⟩ | ⟨a, -, -, heq⟩
  · rcases eq_lone_iff.1 heq with ⟨⟨⟩, -⟩ | ⟨p, ⟨⟩, -⟩
    exact String.lt_irrefl _ ((List.pairwise_cons.1 hes).1 _ he)
  · rcases eq_lone_iff.1 heq with ⟨⟨⟩, -⟩ | ⟨p, ⟨⟩, -⟩

/-- A key of the second list that is told of as it is does not come again. -/
theorem disjoint_tell_added_walk {E A told : KeySet} {a : String} {es as : List String}
    (hes : es.Pairwise (· < ·)) (has : (a :: as).Pairwise (· < ·)) :
    List.Disjoint (tell .added E told a).1 (walk E A (tell .added E told a).2 es as) := by
  intro c hc hlater
  obtain ⟨hlater, hnew⟩ := (mem_walk hes (List.pairwise_cons.1 has).2).1 hlater
  have hadded : ∀ k p, Change.added k ≠ .changed p := fun _ _ => nofun
  obtain rfl := eq_single_of_mem_tell hadded hc hnew
  rcases hlater with ⟨e, -, -, heq⟩ | ⟨a', ha, -, heq⟩
  · rcases eq_lone_iff.1 heq with ⟨⟨⟩, -⟩ | ⟨p, ⟨⟩, -⟩
  · rcases eq_lone_iff.1 heq with ⟨⟨⟩, -⟩ | ⟨p, ⟨⟩, -⟩
    exact String.lt_irrefl _ ((List.pairwise_cons.1 has).1 _ ha)

/-- **The walk** tells of nothing twice. -/
theorem nodup_walk {E A told : KeySet} {es as : List String} (hes : es.Pairwise (· < ·))
    (has : as.Pairwise (· < ·)) : (walk E A told es as).Nodup := by
  fun_induction walk E A told es as with
  | case1 told es a as ih => exact ih (List.pairwise_cons.1 hes).2 (List.pairwise_cons.1 has).2
  | case2 told e es a as hne hlt now ih =>
      exact List.Nodup.append nodup_tell (ih (List.pairwise_cons.1 hes).2 has)
        (disjoint_tell_removed_walk hes has)
  | case3 told e es a as hne hnlt now ih =>
      exact List.Nodup.append nodup_tell (ih hes (List.pairwise_cons.1 has).2)
        (disjoint_tell_added_walk hes has)
  | case4 told e es now ih =>
      exact List.Nodup.append nodup_tell (ih (List.pairwise_cons.1 hes).2 .nil)
        (disjoint_tell_removed_walk hes .nil)
  | case5 told a as now ih =>
      exact List.Nodup.append nodup_tell (ih .nil (List.pairwise_cons.1 has).2)
        (disjoint_tell_added_walk .nil has)
  | case6 told => exact .nil

/-! ## order -/

/-- The key that a difference says is removed. -/
def Change.removed? : Change → Option String
  | removed p => some p
  | _ => none

/-- The key that a difference says is added. -/
def Change.added? : Change → Option String
  | added p => some p
  | _ => none

theorem Change.removed?_eq_some_iff {c : Change} {p : String} :
    c.removed? = some p ↔ c = .removed p := by
  cases c <;> simp [Change.removed?]

theorem Change.added?_eq_some_iff {c : Change} {p : String} :
    c.added? = some p ↔ c = .added p := by
  cases c <;> simp [Change.added?]

/-- The removed keys come in the order of the first list, and the added ones in that of the
second. -/
theorem walk_sublist (E A told : KeySet) (es as : List String) :
    ((walk E A told es as).filterMap Change.removed?).Sublist es ∧
      ((walk E A told es as).filterMap Change.added?).Sublist as := by
  fun_induction walk E A told es as with
  | case1 told es a as ih => exact ⟨ih.1.cons a, ih.2.cons a⟩
  | case2 told e es a as hne hlt now ih | case4 told e es now ih =>
      simp only [List.filterMap_append]
      exact ⟨(filterMap_tell_sublist fun _ => rfl).append ih.1,
        (filterMap_tell_sublist fun _ => rfl).append ih.2⟩
  | case3 told e es a as hne hnlt now ih | case5 told a as now ih =>
      simp only [List.filterMap_append]
      exact ⟨(filterMap_tell_sublist fun _ => rfl).append ih.1,
        (filterMap_tell_sublist fun _ => rfl).append ih.2⟩
  | case6 told => exact ⟨.slnil, .slnil⟩

/-! ## the difference -/

/-- What a difference is: a key of one set that the other does not have, as the conflict with the
other set makes it appear. -/
theorem mem_diff {E A : KeySet} {c : Change} :
    c ∈ diff E A ↔
      (∃ e ∈ E, e ∉ A ∧ c = onlyExpected A e) ∨ (∃ a ∈ A, a ∉ E ∧ c = onlyActual E a) := by
  have hnone : ∀ p ∈ KeySet.empty, c ≠ .changed p := fun _ hp => nomatch hp
  rw [diff, mem_walk E.sorted A.sorted, and_iff_left hnone]
  rfl

/-- What a difference is, in terms of the two sets. -/
theorem mem_diff_iff {E A : KeySet} {c : Change} :
    c ∈ diff E A ↔
      (∃ e ∈ E, e ∉ A ∧ ((c = .removed e ∧ ∀ a ∈ A, ¬ Related a e) ∨
        ∃ p, c = .changed p ∧ DisagreesAt A e p)) ∨
      ∃ a ∈ A, a ∉ E ∧ ((c = .added a ∧ ∀ e ∈ E, ¬ Related e a) ∨
        ∃ p, c = .changed p ∧ DisagreesAt E a p) := by
  simp only [mem_diff, onlyExpected, onlyActual, eq_lone_iff]

theorem removed_mem_diff {E A : KeySet} {p : String} :
    .removed p ∈ diff E A ↔ p ∈ E ∧ p ∉ A ∧ ∀ a ∈ A, ¬ Related a p := by
  rw [mem_diff_iff]
  constructor
  · rintro (⟨e, he, hn, ⟨⟨⟩, hrel⟩ | ⟨q, ⟨⟩, -⟩⟩ | ⟨a, -, -, ⟨⟨⟩, -⟩ | ⟨q, ⟨⟩, -⟩⟩)
    exact ⟨he, hn, hrel⟩
  · rintro ⟨hp, hn, hrel⟩
    exact .inl ⟨p, hp, hn, .inl ⟨rfl, hrel⟩⟩

theorem added_mem_diff {E A : KeySet} {p : String} :
    .added p ∈ diff E A ↔ p ∈ A ∧ p ∉ E ∧ ∀ e ∈ E, ¬ Related e p := by
  rw [mem_diff_iff]
  constructor
  · rintro (⟨e, -, -, ⟨⟨⟩, -⟩ | ⟨q, ⟨⟩, -⟩⟩ | ⟨a, ha, hn, ⟨⟨⟩, hrel⟩ | ⟨q, ⟨⟩, -⟩⟩)
    exact ⟨ha, hn, hrel⟩
  · rintro ⟨hp, hn, hrel⟩
    exact .inr ⟨p, hp, hn, .inl ⟨rfl, hrel⟩⟩

theorem changed_mem_diff {E A : KeySet} {p : String} :
    .changed p ∈ diff E A ↔
      ∃ q, (q ∈ E ∧ q ∉ A ∧ DisagreesAt A q p) ∨ (q ∈ A ∧ q ∉ E ∧ DisagreesAt E q p) := by
  rw [mem_diff_iff]
  constructor
  · rintro (⟨q, hq, hn, ⟨⟨⟩, -⟩ | ⟨r, ⟨⟩, h⟩⟩ | ⟨q, hq, hn, ⟨⟨⟩, -⟩ | ⟨r, ⟨⟩, h⟩⟩)
    · exact ⟨q, .inl ⟨hq, hn, h⟩⟩
    · exact ⟨q, .inr ⟨hq, hn, h⟩⟩
  · rintro ⟨q, ⟨hq, hn, h⟩ | ⟨hq, hn, h⟩⟩
    · exact .inl ⟨q, hq, hn, .inr ⟨p, rfl, h⟩⟩
    · exact .inr ⟨q, hq, hn, .inr ⟨p, rfl, h⟩⟩

theorem removed_diff_ascending (E A : KeySet) :
    ((diff E A).filterMap Change.removed?).Pairwise (· < ·) :=
  E.sorted.sublist (walk_sublist E A .empty E.toList A.toList).1

theorem added_diff_ascending (E A : KeySet) :
    ((diff E A).filterMap Change.added?).Pairwise (· < ·) :=
  A.sorted.sublist (walk_sublist E A .empty E.toList A.toList).2

/-- **The meaning of the difference** of two sets of keys: a key that only one set has, and that
is not related to anything in the other, is removed or added; every other one shows where the sets
disagree about the shape.  Nothing is said twice, and keys that are removed, like those that are
added, come in the order of their bytes. -/
theorem diff_iff (E A : KeySet) :
    (∀ p, .removed p ∈ diff E A ↔ p ∈ E ∧ p ∉ A ∧ ∀ a ∈ A, ¬ Related a p) ∧
    (∀ p, .added p ∈ diff E A ↔ p ∈ A ∧ p ∉ E ∧ ∀ e ∈ E, ¬ Related e p) ∧
    (∀ p, .changed p ∈ diff E A ↔
      ∃ q, (q ∈ E ∧ q ∉ A ∧ DisagreesAt A q p) ∨ (q ∈ A ∧ q ∉ E ∧ DisagreesAt E q p)) ∧
    (diff E A).Nodup ∧
    ((diff E A).filterMap Change.removed?).Pairwise (fun p q => utf8 p < utf8 q) ∧
    ((diff E A).filterMap Change.added?).Pairwise (fun p q => utf8 p < utf8 q) :=
  ⟨fun _ => removed_mem_diff, fun _ => added_mem_diff, fun _ => changed_mem_diff,
    nodup_walk E.sorted A.sorted, (removed_diff_ascending E A).imp lt_iff_utf8_lt.1,
    (added_diff_ascending E A).imp lt_iff_utf8_lt.1⟩

end LocaleAudit.Key
