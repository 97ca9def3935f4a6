import LocaleAudit.Json.Node

/-!
# LocaleAudit.Proofs.Json.Node

Properties of JSON as it is written.  A property is a member of an object at any depth, and it is
known by the names on the way down to it, of which its own name is the last.

* `Node.member_induction` — what holds for a node if it holds for the values of its members;
* `properties` — the properties of a node in the order of the text;
* `exists_mem_of_mem_insertAll` — the members of an object value are written ones.
-/

namespace LocaleAudit.Json

/-! ## induction -/

mutual

/-- Induction over the objects of a node: elements of arrays have no names, so that only the values
of members count. -/
@[elab_as_elim]
theorem Node.member_induction {motive : Node → Prop}
    (step : ∀ n, (∀ m ∈ n.members, motive m.value) → motive n) (n : Node) : motive n := by
  cases n with
  | object ms span => exact step _ (members_induction step ms)
  | null => exact step _ (by simp [Node.members])
  | bool => exact step _ (by simp [Node.members])
  | number => exact step _ (by simp [Node.members])
  | string => exact step _ (by simp [Node.members])
  | array => exact step _ (by simp [Node.members])

theorem members_induction {motive : Node → Prop}
    (step : ∀ n, (∀ m ∈ n.members, motive m.value) → motive n) (ms : List (Member Node)) :
    ∀ m ∈ ms, motive m.value := by
  cases ms with
  | nil => simp
  | cons m ms =>
      exact List.forall_mem_cons.2
        ⟨Node.member_induction step m.value, members_induction step ms⟩

end

/-! ## properties -/

/-- A property: the names on the way down to it, and the member that it is. -/
abbrev Property := List String × Member Node

mutual

/-- The properties of a node, in the order of the text; each stands in front of those below it. -/
def properties : Node → List Property
  | .object ms _ => propertiesOf ms
  | _ => []

/-- The properties of the members of an object. -/
def propertiesOf : List (Member Node) → List Property
  | [] => []
  | ⟨key, value, span⟩ :: ms =>
    ([key.name], ⟨key, value, span⟩) ::
      ((properties value).map fun p => (key.name :: p.1, p.2)) ++ propertiesOf ms

end

/-- The path of a property: the names joined by dots. -/
def Property.path (p : Property) : String := ".".intercalate p.1

theorem mem_propertiesOf {ms : List (Member Node)} {p : Property} :
    p ∈ propertiesOf ms ↔
      ∃ m ∈ ms, p = ([m.key.name], m) ∨ ∃ q ∈ properties m.value, p = (m.key.name :: q.1, q.2) := by
  induction ms with
  | nil => simp [propertiesOf]
  | cons m ms ih =>
      simp only [propertiesOf, List.cons_append, List.mem_cons, List.mem_append, List.mem_map, ih,
        exists_eq_or_imp, or_assoc]
      simp only [eq_comm]

/-- The names of a property are those of its object's member, and of the property below. -/
theorem mem_properties {n : Node} {p : Property} :
    p ∈ properties n ↔ ∃ m ∈ n.members,
      p = ([m.key.name], m) ∨ ∃ q ∈ properties m.value, p = (m.key.name :: q.1, q.2) := by
  cases n with
  | object ms span => exact mem_propertiesOf
  | null => simp [properties, Node.members]
  | bool => simp [properties, Node.members]
  | number => simp [properties, Node.members]
  | string => simp [properties, Node.members]
  | array => simp [properties, Node.members]

/-- A member is a property of its object. -/
theorem mem_properties_of_mem {n : Node} {m : Member Node} (hm : m ∈ n.members) :
    ([m.key.name], m) ∈ properties n :=
  mem_properties.2 ⟨m, hm, .inl rfl⟩

/-- A property of the value of a member is a property of the object. -/
theorem mem_properties_below {n : Node} {m : Member Node} (hm : m ∈ n.members) {p : Property}
    (hp : p ∈ properties m.value) : (m.key.name :: p.1, p.2) ∈ properties n :=
  mem_properties.2 ⟨m, hm, .inr ⟨p, hp, rfl⟩⟩

theorem names_ne_nil {n : Node} {p : Property} (h : p ∈ properties n) : p.1 ≠ [] := by
  obtain ⟨m, -, rfl | ⟨q, -, rfl⟩⟩ := mem_properties.1 h
  · exact List.cons_ne_nil _ _
  · exact List.cons_ne_nil _ _

theorem path_singleton (name : String) (m : Member Node) : Property.path ([name], m) = name :=
  String.intercalate_singleton

theorem path_cons {name : String} {p : Property} (h : p.1 ≠ []) :
    Property.path (name :: p.1, p.2) = name ++ "." ++ p.path :=
  String.intercalate_cons_of_ne_nil h

/-! ## values -/

theorem mem_insert_cases {α : Type} {name : String} {value : α} {ms : List (String × α)}
    {m : String × α} (h : m ∈ insert name value ms) : m = (name, value) ∨ m ∈ ms := by
  induction ms with
  | nil => simpa [insert] using h
  | cons m' ms ih =>
      rw [insert] at h
      split at h
      · rename_i hname
        subst hname
        rcases List.mem_cons.1 h with h | h
        · exact .inl h
        · exact .inr (List.mem_cons_of_mem _ h)
      · rcases List.mem_cons.1 h with rfl | h
        · exact .inr List.mem_cons_self
        · exact (ih h).imp_right (List.mem_cons_of_mem _)

theorem mem_foldl_insert {α : Type} {written ms : List (String × α)} {m : String × α}
    (h : m ∈ written.foldl (fun ms m => insert m.1 m.2 ms) ms) : m ∈ ms ∨ m ∈ written := by
  induction written generalizing ms with
  | nil => exact .inl h
  | cons w ws ih =>
      rcases ih h with h | h
      · rcases mem_insert_cases h with rfl | h
        · exact .inr List.mem_cons_self
        · exact .inl h
      · exact .inr (List.mem_cons_of_mem _ h)

/-- A member of an object value is one of those that were written. -/
theorem mem_of_mem_insertAll {α : Type} {written : List (String × α)} {m : String × α}
    (h : m ∈ insertAll written) : m ∈ written :=
  (mem_foldl_insert h).resolve_left List.not_mem_nil

theorem mem_memberValues {ms : List (Member Node)} {v : String × Value} :
    v ∈ Node.memberValues ms ↔ ∃ m ∈ ms, v = (m.key.name, m.value.toValue) := by
  induction ms with
  | nil => simp [Node.memberValues]
  | cons m ms ih => simp [Node.memberValues, ih]

/-- A member of the value of an object is the value of a member. -/
theorem exists_mem_of_mem_insertAll {ms : List (Member Node)} {v : String × Value}
    (h : v ∈ insertAll (Node.memberValues ms)) : ∃ m ∈ ms, v = (m.key.name, m.value.toValue) :=
  mem_memberValues.1 (mem_of_mem_insertAll h)

end LocaleAudit.Json
