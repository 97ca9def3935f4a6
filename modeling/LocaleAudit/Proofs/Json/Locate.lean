import LocaleAudit.Json.Locate
import LocaleAudit.Proofs.Json.Node
import Mathlib.Data.List.Find

/-!
# LocaleAudit.Proofs.Json.Locate

Finding a member against the list of all properties: `Node.find?` goes down where the path goes on
behind a name and comes back if there is nothing, and that gives the first property of the list
that has the path.

* `find?_eq_firstAt` — the first property with the path is found;
* `exists_mem_properties_of_find?`, `exists_find?_of_mem_properties` — what is found has the path,
  and something is found at the path of a property.
-/

namespace LocaleAudit.Json

open Text

theorem below?_eq_some_iff {name path rest : List Char} :
    below? name path = some rest ↔ path = name ++ '.' :: rest := by
  unfold below?
  split
  · rename_i rest' hbehind
    rw [behind?_eq_some_iff] at hbehind
    simp [← hbehind, eq_comm]
  · rename_i hnone
    simp only [reduceCtorEq, false_iff]
    rintro rfl
    exact hnone rest (behind?_eq_some_iff.2 rfl)

/-- The member of the first property in a list that has a path. -/
def firstAt (path : List Char) (ps : List Property) : Option (Member Node) :=
  (ps.find? fun p => p.path.toList = path).map (·.2)

theorem firstAt_append (path : List Char) (ps qs : List Property) :
    firstAt path (ps ++ qs) = (firstAt path ps).or (firstAt path qs) := by
  rw [firstAt, List.find?_append, Option.map_or]
  rfl

theorem firstAt_eq_none_iff {path : List Char} {ps : List Property} :
    firstAt path ps = none ↔ ∀ p ∈ ps, p.path.toList ≠ path := by
  simp [firstAt]

theorem toList_path_cons {name : String} {p : Property} (h : p.1 ≠ []) :
    (Property.path (name :: p.1, p.2)).toList = name.toList ++ '.' :: p.path.toList := by
  rw [path_cons h, String.toList_append, String.toList_append, List.append_assoc]
  rfl

/-- Below a member, the path goes on behind its name and a dot. -/
theorem firstAt_map (path : List Char) (name : String) (n : Node) :
    firstAt path ((properties n).map fun p => (name :: p.1, p.2)) =
      (below? name.toList path).bind fun rest => firstAt rest (properties n) := by
  cases hbelow : below? name.toList path with
  | none =>
      simp only [Option.bind_none, firstAt_eq_none_iff, List.forall_mem_map]
      intro p hp hpath
      rw [toList_path_cons (names_ne_nil hp)] at hpath
      rw [below?_eq_some_iff.2 hpath.symm] at hbelow
      contradiction
  | some rest =>
      obtain rfl := below?_eq_some_iff.1 hbelow
      simp only [Option.bind_some, firstAt, List.find?_map, Option.map_map, Function.comp_def]
      congr 1
      refine List.find?_congr fun p hp => ?_
      rw [toList_path_cons (names_ne_nil hp)]
      simp

/-- The first property of an object with a path is the first member, or a property below it, or one
of the other members or below them. -/
theorem firstAt_propertiesOf_cons (path : List Char) (key : Key) (value : Node)
    (span : Span) (ms : List (Member Node)) :
    firstAt path (propertiesOf (⟨key, value, span⟩ :: ms)) =
      if path = key.name.toList then some ⟨key, value, span⟩
      else ((below? key.name.toList path).bind fun rest => firstAt rest (properties value)).or
        (firstAt path (propertiesOf ms)) := by
  rw [propertiesOf, ← firstAt_map, ← firstAt_append, List.cons_append, firstAt, List.find?_cons]
  by_cases hpath : path = key.name.toList
  · simp [hpath, path_singleton]
  · simp [hpath, path_singleton, eq_comm, firstAt]

/-- **The first property with a path** is the one that is found. -/
theorem find?_eq_firstAt (n : Node) (path : List Char) :
    n.find? path = firstAt path (properties n) := by
  induction n using Node.member_induction generalizing path with
  | step n ih =>
      cases n with
      | object ms span =>
          rw [Node.find?, properties]
          -- the list of the members shrinks, so their hypotheses have to be about the list alone
          replace ih : ∀ m ∈ ms, ∀ path,
              m.value.find? path = firstAt path (properties m.value) := ih
          induction ms with
          | nil => rfl
          | cons m ms ihs =>
              obtain ⟨hvalue, hms⟩ := List.forall_mem_cons.1 ih
              rw [findMember?, firstAt_propertiesOf_cons, ihs hms]
              simp only [← hvalue]
              split
              · rfl
              · split
                · rename_i hfound
                  rw [hfound, Option.some_or]
                · rename_i hnone
                  rw [hnone, Option.none_or]
      | null => rfl
      | bool => rfl
      | number => rfl
      | string => rfl
      | array => rfl

/-- What is found is a property with the path. -/
theorem exists_mem_properties_of_find? {n : Node} {path : List Char} {m : Member Node}
    (h : n.find? path = some m) : ∃ p ∈ properties n, p.path.toList = path ∧ p.2 = m := by
  rw [find?_eq_firstAt, firstAt, Option.map_eq_some_iff] at h
  obtain ⟨p, hfound, rfl⟩ := h
  exact ⟨p, List.mem_of_find?_eq_some hfound, by simpa using List.find?_some hfound, rfl⟩

/-- Something is found at the path of each property. -/
theorem exists_find?_of_mem_properties {n : Node} {p : Property} (h : p ∈ properties n) :
    ∃ m, n.find? p.path.toList = some m := by
  rw [← Option.ne_none_iff_exists', find?_eq_firstAt, ne_eq, firstAt_eq_none_iff]
  exact fun hnone => hnone p h rfl

end LocaleAudit.Json
