import LocaleAudit.Key.Link

/-!
# LocaleAudit.Proofs.Key.Link

Links in values.

* `mem_linksIn_iff` — the keys that a value links to are those that some string in it links to, at
  any depth.
-/

namespace LocaleAudit.Key

open Json

/-- A string stands in a value, through any number of arrays and objects. -/
inductive HoldsString (s : String) : Value → Prop
  | string : HoldsString s (.string s)
  | element {v : Value} {vs : List Value} (hv : v ∈ vs) (hs : HoldsString s v) :
      HoldsString s (.array vs)
  | member {m : String × Value} {ms : List (String × Value)} (hm : m ∈ ms)
      (hs : HoldsString s m.2) : HoldsString s (.object ms)

theorem mem_linksInElements_iff {k : String} {vs : List Value} :
    k ∈ linksInElements vs ↔ ∃ v ∈ vs, k ∈ linksIn v := by
  induction vs with
  | nil => simp [linksInElements]
  | cons v vs ih => simp [linksInElements, ih]

theorem mem_linksInMembers_iff {k : String} {ms : List (String × Value)} :
    k ∈ linksInMembers ms ↔ ∃ m ∈ ms, k ∈ linksIn m.2 := by
  induction ms with
  | nil => simp [linksInMembers]
  | cons m ms ih => simp [linksInMembers, ih]

/-- The keys of a string in a value are found. -/
theorem mem_linksIn_of_holdsString {s k : String} {v : Value} (hs : HoldsString s v)
    (hk : k.toList ∈ links s.toList) : k ∈ linksIn v := by
  induction hs with
  | string =>
      rw [linksIn]
      exact List.mem_map.2 ⟨k.toList, hk, String.ofList_toList⟩
  | element hv hs ih =>
      rw [linksIn]
      exact mem_linksInElements_iff.2 ⟨_, hv, ih⟩
  | member hm hs ih =>
      rw [linksIn]
      exact mem_linksInMembers_iff.2 ⟨_, hm, ih⟩

mutual

/-- What is found is a key of a string in the value. -/
theorem exists_of_mem_linksIn {k : String} (v : Value) (h : k ∈ linksIn v) :
    ∃ s, HoldsString s v ∧ k.toList ∈ links s.toList := by
  cases v with
  | string s =>
      rw [linksIn] at h
      obtain ⟨cs, hcs, rfl⟩ := List.mem_map.1 h
      exact ⟨s, .string, by rwa [String.toList_ofList]⟩
  | array vs =>
      rw [linksIn] at h
      obtain ⟨v, hv, s, hs, hk⟩ := exists_of_mem_linksInElements vs h
      exact ⟨s, .element hv hs, hk⟩
  | object ms =>
      rw [linksIn] at h
      obtain ⟨m, hm, s, hs, hk⟩ := exists_of_mem_linksInMembers ms h
      exact ⟨s, .member hm hs, hk⟩
  | null => simp [linksIn] at h
  | bool => simp [linksIn] at h
  | number => simp [linksIn] at h

theorem exists_of_mem_linksInElements {k : String} (vs : List Value)
    (h : k ∈ linksInElements vs) : ∃ v ∈ vs, ∃ s, HoldsString s v ∧ k.toList ∈ links s.toList := by
  cases vs with
  | nil => simp [linksInElements] at h
  | cons v vs =>
      rcases List.mem_append.1 h with h | h
      · exact ⟨v, List.mem_cons_self, exists_of_mem_linksIn v h⟩
      · obtain ⟨w, hw, hs⟩ := exists_of_mem_linksInElements vs h
        exact ⟨w, List.mem_cons_of_mem v hw, hs⟩

theorem exists_of_mem_linksInMembers {k : String} (ms : List (String × Value))
    (h : k ∈ linksInMembers ms) :
    ∃ m ∈ ms, ∃ s, HoldsString s m.2 ∧ k.toList ∈ links s.toList := by
  cases ms with
  | nil => simp [linksInMembers] at h
  | cons m ms =>
      rcases List.mem_append.1 h with h | h
      · exact ⟨m, List.mem_cons_self, exists_of_mem_linksIn m.2 h⟩
      · obtain ⟨w, hw, hs⟩ := exists_of_mem_linksInMembers ms h
        exact ⟨w, List.mem_cons_of_mem m hw, hs⟩

end

/-- **The keys that a value links to** are those of the strings in it. -/
theorem mem_linksIn_iff {k : String} {v : Value} :
    k ∈ linksIn v ↔ ∃ s, HoldsString s v ∧ k.toList ∈ links s.toList :=
  ⟨exists_of_mem_linksIn v, fun ⟨_, hs, hk⟩ => mem_linksIn_of_holdsString hs hk⟩

end LocaleAudit.Key
