import LocaleAudit.Proofs.Json.Node

/-!
# LocaleAudit.Proofs.Json.Value

JSON values seen from above: the members of objects, and what stands at the end of a chain of
names.  Arrays count as a whole, so that only the members of objects are gone down to.

* `Value.member_induction` — what holds for a value if it holds for the values of its members;
* `nodup_names_toValue` — the members of the value of a node have distinct names;
* `exists_property_of_leafAt` — what stands in the value of a node is written there.
-/

namespace LocaleAudit.Json

namespace Value

/-! ## members -/

/-- The members of an object, and none of anything else. -/
def members : Value → List (String × Value)
  | object ms => ms
  | _ => []

/-- The value is an object. -/
def isObject : Value → Bool
  | object _ => true
  | _ => false

theorem members_eq_nil {v : Value} (h : v.isObject = false) : v.members = [] := by
  cases v with
  | object ms => contradiction
  | null => rfl
  | bool => rfl
  | number => rfl
  | string => rfl
  | array => rfl

mutual

/-- Induction over the objects of a value. -/
@[elab_as_elim]
theorem member_induction {motive : Value → Prop}
    (step : ∀ v, (∀ m ∈ v.members, motive m.2) → motive v) (v : Value) : motive v := by
  cases v with
  | object ms => exact step _ (memberList_induction step ms)
  | null => exact step _ (by simp [members])
  | bool => exact step _ (by simp [members])
  | number => exact step _ (by simp [members])
  | string => exact step _ (by simp [members])
  | array => exact step _ (by simp [members])

theorem memberList_induction {motive : Value → Prop}
    (step : ∀ v, (∀ m ∈ v.members, motive m.2) → motive v) (ms : List (String × Value)) :
    ∀ m ∈ ms, motive m.2 := by
  cases ms with
  | nil => simp
  | cons m ms =>
      exact List.forall_mem_cons.2 ⟨member_induction step m.2, memberList_induction step ms⟩

end

/-! ## leaves -/

/-- A value that is not an object stands in another one at the end of a chain of names. -/
inductive LeafAt : Value → List String → Value → Prop
  | here {v : Value} (hleaf : v.isObject = false) : LeafAt v [] v
  | member {v w : Value} {m : String × Value} {names : List String} (hm : m ∈ v.members)
      (hrest : LeafAt m.2 names w) : LeafAt v (m.1 :: names) w

/-- A value that is not an object stands at a path, which is a chain of names joined by dots. -/
def HasLeaf (v : Value) (path : String) (w : Value) : Prop :=
  ∃ names, names ≠ [] ∧ ".".intercalate names = path ∧ v.LeafAt names w

theorem LeafAt.isObject_eq_false {v w : Value} {names : List String} (h : v.LeafAt names w) :
    w.isObject = false := by
  induction h with
  | here hleaf => exact hleaf
  | member hm hrest ih => exact ih

end Value

/-! ## values of nodes -/

theorem members_toValue (n : Node) :
    n.toValue.members = insertAll (Node.memberValues n.members) := by
  cases n with
  | object ms span => rw [Node.toValue, Value.members, Node.members]
  | number raw span =>
      rw [Node.toValue]
      cases Number.ofText? raw.toList <;> rfl
  | null => rfl
  | bool => rfl
  | string => rfl
  | array => rfl

/-- A member of the value of a node is the value of a member. -/
theorem exists_of_mem_members_toValue {n : Node} {v : String × Value}
    (h : v ∈ n.toValue.members) : ∃ m ∈ n.members, v = (m.key.name, m.value.toValue) := by
  rw [members_toValue] at h
  exact exists_mem_of_mem_insertAll h

theorem names_insert {α : Type} (name : String) (value : α) (ms : List (String × α)) :
    (insert name value ms).map (·.1) =
      if name ∈ ms.map (·.1) then ms.map (·.1) else ms.map (·.1) ++ [name] := by
  induction ms with
  | nil => rfl
  | cons m ms ih =>
      rw [insert]
      split
      · rename_i hname
        simp [hname]
      · rename_i hname
        simp only [List.map_cons, ih, List.mem_cons, Ne.symm hname, false_or]
        split <;> rfl

theorem nodup_names_insertAll {α : Type} (written : List (String × α)) :
    ((insertAll written).map (·.1)).Nodup := by
  have run (ms : List (String × α)) (h : (ms.map (·.1)).Nodup) :
      ((written.foldl (fun ms m => insert m.1 m.2 ms) ms).map (·.1)).Nodup := by
    induction written generalizing ms with
    | nil => exact h
    | cons w ws ih =>
        refine ih _ ?_
        rw [names_insert]
        split
        · exact h
        · rename_i hnew
          exact List.nodup_append.2 ⟨h, List.pairwise_singleton _ _, by grind⟩
  exact run [] List.nodup_nil

/-- **The members of the value of a node** have distinct names. -/
theorem nodup_names_toValue (n : Node) : (n.toValue.members.map (·.1)).Nodup := by
  rw [members_toValue]
  exact nodup_names_insertAll _

/-- **What stands in the value of a node** is the value of a property with the same names. -/
theorem exists_property_of_leafAt {n : Node} {names : List String} {w : Value}
    (h : n.toValue.LeafAt names w) (hne : names ≠ []) :
    ∃ p ∈ properties n, p.1 = names ∧ p.2.value.toValue = w := by
  generalize hv : n.toValue = v at h
  induction h generalizing n with
  | here => contradiction
  | @member v w m names hm hrest ih =>
      subst hv
      obtain ⟨written, hwritten, rfl⟩ := exists_of_mem_members_toValue hm
      cases names with
      | nil =>
          cases hrest with
          | here => exact ⟨_, mem_properties_of_mem hwritten, rfl, rfl⟩
      | cons name names =>
          obtain ⟨p, hp, hnames, hvalue⟩ := ih (List.cons_ne_nil _ _) rfl
          exact ⟨_, mem_properties_below hwritten hp, by rw [hnames], hvalue⟩

end LocaleAudit.Json
