/-!
# LocaleAudit.Key.Set

Sets of keys as lists in ascending order, by bytes.

* `mem_insert`, `mem_ofList`, `mem_union`, `mem_filter` — what the operations do to membership.
-/

namespace LocaleAudit

/-- A set of keys. -/
structure KeySet where
  /-- The keys in ascending order. -/
  toList : List String
  /-- The order is strict. -/
  sorted : toList.Pairwise (· < ·)
deriving DecidableEq

namespace KeySet

/-- The set without keys. -/
def empty : KeySet := ⟨[], .nil⟩

instance : Inhabited KeySet := ⟨empty⟩

instance : Membership String KeySet := ⟨fun s k => k ∈ s.toList⟩

instance (k : String) (s : KeySet) : Decidable (k ∈ s) := inferInstanceAs (Decidable (k ∈ s.toList))

theorem mem_iff {k : String} {s : KeySet} : k ∈ s ↔ k ∈ s.toList := Iff.rfl

/-! ## insertion -/

/-- An ascending list with one more key. -/
def insertInto (key : String) : List String → List String
  | [] => [key]
  | k :: ks =>
    if key < k then key :: k :: ks
    else if key = k then k :: ks
    else k :: insertInto key ks

theorem mem_insertInto {key k : String} {ks : List String} :
    k ∈ insertInto key ks ↔ k = key ∨ k ∈ ks := by
  induction ks with
  | nil => simp [insertInto]
  | cons k' ks ih =>
    simp only [insertInto]
    split
    · simp
    · split
      · rename_i h
        subst h
        simp
      · simp only [List.mem_cons, ih]
        grind

theorem pairwise_insertInto {key : String} {ks : List String} (h : ks.Pairwise (· < ·)) :
    (insertInto key ks).Pairwise (· < ·) := by
  induction ks with
  | nil => simp [insertInto]
  | cons k ks ih =>
    rw [List.pairwise_cons] at h
    simp only [insertInto]
    split
    · rename_i hlt
      refine List.pairwise_cons.2 ⟨fun k' hk' => ?_, List.pairwise_cons.2 h⟩
      rcases List.mem_cons.1 hk' with rfl | hk'
      · exact hlt
      · exact String.lt_trans hlt (h.1 k' hk')
    · split
      · exact List.pairwise_cons.2 h
      · rename_i hlt hne
        refine List.pairwise_cons.2 ⟨fun k' hk' => ?_, ih h.2⟩
        rcases mem_insertInto.1 hk' with rfl | hk'
        · exact Std.lt_of_le_of_ne (String.not_lt.1 hlt) (Ne.symm hne)
        · exact h.1 k' hk'

/-- The set with one more key. -/
def insert (key : String) (s : KeySet) : KeySet :=
  ⟨insertInto key s.toList, pairwise_insertInto s.sorted⟩

@[simp] theorem mem_insert {key k : String} {s : KeySet} : k ∈ s.insert key ↔ k = key ∨ k ∈ s :=
  mem_insertInto

/-- The set of the keys in a list. -/
def ofList : List String → KeySet
  | [] => empty
  | k :: ks => (ofList ks).insert k

@[simp] theorem mem_ofList {k : String} {ks : List String} : k ∈ ofList ks ↔ k ∈ ks := by
  induction ks with
  | nil => simp [ofList, empty, mem_iff]
  | cons k' ks ih => simp [ofList, ih]

/-! ## combination -/

/-- The keys that are in one of two sets. -/
def union (s t : KeySet) : KeySet := ofList (s.toList ++ t.toList)

@[simp] theorem mem_union {k : String} {s t : KeySet} : k ∈ s.union t ↔ k ∈ s ∨ k ∈ t := by
  simp [union, mem_iff (s := s), mem_iff (s := t)]

/-- The keys of a set that pass a test. -/
def filter (p : String → Bool) (s : KeySet) : KeySet := ⟨s.toList.filter p, s.sorted.filter p⟩

@[simp] theorem mem_filter {k : String} {p : String → Bool} {s : KeySet} :
    k ∈ s.filter p ↔ k ∈ s ∧ p k = true := by
  simp [filter, mem_iff]

/-- The key is in the set. -/
def contains (s : KeySet) (k : String) : Bool := decide (k ∈ s)

/-- The first key of a set from the given one on. -/
def firstFrom? (s : KeySet) (key : String) : Option String := s.toList.find? fun k => ¬ k < key

end KeySet

end LocaleAudit
