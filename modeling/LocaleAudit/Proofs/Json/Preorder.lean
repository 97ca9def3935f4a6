import LocaleAudit.Proofs.Json.Locate
import Mathlib.Data.List.Forall2

/-!
# LocaleAudit.Proofs.Json.Preorder

The order of the properties of a document.  The address of a property is the number of the member
at each level on the way down to it.  In the order of the text an address stands in front of those
that go on from it, and an earlier member stands in front of a later one with all that is below
it, so this is the lexicographic order.

* `forall₂_addresses`, `mem_addresses`, `pairwise_addresses` — the list of properties has the one
  at each address, in ascending order of the addresses;
* `find?_least` — what is found at a path is the property with the least address among those that
  have the path.
-/

namespace LocaleAudit.Json

/-! ## addresses -/

/-- A property that stands at an address among some members: one of them, or a property of the value
of one of them if that is an object. -/
inductive StandsAt : List (Member Node) → List Nat → Property → Prop
  | own {ms : List (Member Node)} {i : Nat} {m : Member Node} (hm : ms[i]? = some m) :
      StandsAt ms [i] ([m.key.name], m)
  | inner {ms : List (Member Node)} {i : Nat} {m : Member Node} {address : List Nat} {p : Property}
      (hm : ms[i]? = some m) (hp : StandsAt m.value.members address p) :
      StandsAt ms (i :: address) (m.key.name :: p.1, p.2)

/-- The order of the text. -/
abbrev Precedes (address other : List Nat) : Prop := List.Lex (· < ·) address other

mutual

/-- The addresses of the properties of a node, in the order of the text. -/
def addresses : Node → List (List Nat)
  | .object ms _ => addressesFrom 0 ms
  | _ => []

/-- The addresses of members that are numbered from a number on, and of the properties below. -/
def addressesFrom (i : Nat) : List (Member Node) → List (List Nat)
  | [] => []
  | ⟨_, value, _⟩ :: ms => [i] :: ((addresses value).map (i :: ·)) ++ addressesFrom (i + 1) ms

end

section addresses

variable {ms : List (Member Node)} {address : List Nat} {p q : Property} {n : Node}

theorem StandsAt.ne_nil (h : StandsAt ms address p) : address ≠ [] := by
  cases h with
  | own => exact List.cons_ne_nil _ _
  | inner => exact List.cons_ne_nil _ _

/-- There is one property at an address. -/
theorem StandsAt.eq (hp : StandsAt ms address p) (hq : StandsAt ms address q) : p = q := by
  induction hp generalizing q with
  | own hm =>
      cases hq with
      | own hm' => rw [Option.some.inj (hm.symm.trans hm')]
      | inner _ hq => exact absurd rfl hq.ne_nil
  | inner hm hp ih =>
      cases hq with
      | own => exact absurd rfl hp.ne_nil
      | inner hm' hq =>
          obtain rfl := Option.some.inj (hm.symm.trans hm')
          rw [ih hq]

/-- **Each property of the list** stands at the address at its place. -/
theorem forall₂_addresses (n : Node) :
    List.Forall₂ (StandsAt n.members) (addresses n) (properties n) := by
  induction n using Node.member_induction with
  | step n ih =>
      -- the members from a number on, whatever stands in front of them
      have hfrom (ms : List (Member Node)) (hms : ∀ m ∈ ms,
          List.Forall₂ (StandsAt m.value.members) (addresses m.value) (properties m.value))
          (all : List (Member Node)) (i : Nat) (hall : all.drop i = ms) :
          List.Forall₂ (StandsAt all) (addressesFrom i ms) (propertiesOf ms) := by
        induction ms generalizing i with
        | nil => exact .nil
        | cons m ms ihs =>
            obtain ⟨hvalue, hms⟩ := List.forall_mem_cons.1 hms
            have hm : all[i]? = some m := by rw [← List.head?_drop, hall, List.head?_cons]
            have hrest : all.drop (i + 1) = ms := by rw [← List.tail_drop, hall, List.tail_cons]
            refine .cons (.own hm) (List.rel_append ?_ (ihs hms (i + 1) hrest))
            refine List.forall₂_map_left_iff.2 (List.forall₂_map_right_iff.2 ?_)
            exact hvalue.imp fun _ _ hp => .inner hm hp
      cases n with
      | object ms span => exact hfrom ms ih ms 0 rfl
      | null => exact .nil
      | bool => exact .nil
      | number => exact .nil
      | string => exact .nil
      | array => exact .nil

theorem mem_addressesFrom {i j : Nat} {below : List Nat} :
    j :: below ∈ addressesFrom i ms ↔
      ∃ m k, j = i + k ∧ ms[k]? = some m ∧ (below = [] ∨ below ∈ addresses m.value) := by
  induction ms generalizing i with
  | nil => simp [addressesFrom]
  | cons m ms ih =>
      rw [addressesFrom, List.cons_append, List.mem_cons, List.mem_append, List.mem_map, ih]
      constructor
      · rintro (heq | ⟨below', hbelow, heq⟩ | ⟨m', k, rfl, hk, hbelow⟩)
        · obtain ⟨rfl, rfl⟩ := List.cons.inj heq
          exact ⟨m, 0, rfl, rfl, .inl rfl⟩
        · obtain ⟨rfl, rfl⟩ := List.cons.inj heq
          exact ⟨m, 0, rfl, rfl, .inr hbelow⟩
        · exact ⟨m', k + 1, by omega, hk, hbelow⟩
      · rintro ⟨m', k, rfl, hk, hbelow⟩
        cases k with
        | zero =>
            obtain rfl := Option.some.inj hk
            rcases hbelow with rfl | hbelow
            · exact .inl rfl
            · exact .inr (.inl ⟨below, hbelow, rfl⟩)
        | succ k => exact .inr (.inr ⟨m', k, by omega, hk, hbelow⟩)

/-- **Each address of a property** is listed. -/
theorem mem_addresses (h : StandsAt n.members address p) : address ∈ addresses n := by
  generalize hms : n.members = ms at h
  induction h generalizing n with
  | @own ms i m hm =>
      cases n with
      | object =>
          subst hms
          exact mem_addressesFrom.2 ⟨m, i, by omega, hm, .inl rfl⟩
      | _ =>
          subst hms
          contradiction
  | @inner ms i m address p hm hp ih =>
      cases n with
      | object =>
          subst hms
          exact mem_addressesFrom.2 ⟨m, i, by omega, hm, .inr (ih rfl)⟩
      | _ =>
          subst hms
          contradiction

/-- The addresses from a number on start with that number or a larger one. -/
theorem exists_cons_of_mem_addressesFrom {i : Nat} (h : address ∈ addressesFrom i ms) :
    ∃ j below, address = j :: below ∧ i ≤ j := by
  induction ms generalizing i with
  | nil => contradiction
  | cons m ms ih =>
      rw [addressesFrom, List.cons_append, List.mem_cons, List.mem_append, List.mem_map] at h
      rcases h with rfl | ⟨below, -, rfl⟩ | h
      · exact ⟨i, [], rfl, Nat.le_refl i⟩
      · exact ⟨i, below, rfl, Nat.le_refl i⟩
      · obtain ⟨j, below, rfl, hj⟩ := ih h
        exact ⟨j, below, rfl, Nat.le_of_succ_le hj⟩

theorem ne_nil_of_mem_addresses (h : address ∈ addresses n) : address ≠ [] := by
  cases n with
  | object =>
      obtain ⟨j, below, rfl, -⟩ := exists_cons_of_mem_addressesFrom h
      exact List.cons_ne_nil _ _
  | _ => contradiction

theorem pairwise_addressesFrom (hms : ∀ m ∈ ms, (addresses m.value).Pairwise Precedes) (i : Nat) :
    (addressesFrom i ms).Pairwise Precedes := by
  induction ms generalizing i with
  | nil => exact .nil
  | cons m ms ih =>
      obtain ⟨hvalue, hms⟩ := List.forall_mem_cons.1 hms
      rw [addressesFrom, List.cons_append, List.pairwise_cons, List.pairwise_append,
        List.pairwise_map]
      refine ⟨fun address h => ?_, hvalue.imp .cons, ih hms (i + 1),
        fun address h other hother => ?_⟩
      · rcases List.mem_append.1 h with h | h
        · obtain ⟨below, hbelow, rfl⟩ := List.mem_map.1 h
          obtain ⟨j, below, rfl⟩ := List.exists_cons_of_ne_nil (ne_nil_of_mem_addresses hbelow)
          exact .cons .nil
        · obtain ⟨j, below, rfl, hj⟩ := exists_cons_of_mem_addressesFrom h
          exact .rel hj
      · obtain ⟨below, -, rfl⟩ := List.mem_map.1 h
        obtain ⟨j, below', rfl, hj⟩ := exists_cons_of_mem_addressesFrom hother
        exact .rel hj

/-- **The addresses of the list** are ascending. -/
theorem pairwise_addresses (n : Node) : (addresses n).Pairwise Precedes := by
  induction n using Node.member_induction with
  | step n ih =>
      cases n with
      | object ms span => exact pairwise_addressesFrom ih 0
      | null => exact .nil
      | bool => exact .nil
      | number => exact .nil
      | string => exact .nil
      | array => exact .nil

/-! ## the first property with a path -/

/-- What is found in a list of properties has the least address of those that could be. -/
theorem exists_least_of_find? {as : List (List Nat)} {ps : List Property}
    (hps : List.Forall₂ (StandsAt ms) as ps) (has : as.Pairwise Precedes) {f : Property → Bool}
    (hfound : ps.find? f = some p) :
    ∃ address, StandsAt ms address p ∧
      ∀ other ∈ as, ∀ q, StandsAt ms other q → f q = true →
        other = address ∨ Precedes address other := by
  induction hps with
  | nil => contradiction
  | @cons address first as ps hfirst _ ih =>
      obtain ⟨hless, has⟩ := List.pairwise_cons.1 has
      rw [List.find?_cons] at hfound
      split at hfound
      · obtain rfl := Option.some.inj hfound
        refine ⟨address, hfirst, fun other hother q _ _ => ?_⟩
        rcases List.mem_cons.1 hother with rfl | hother
        · exact .inl rfl
        · exact .inr (hless other hother)
      · rename_i hnot
        obtain ⟨least, hleast, hall⟩ := ih has hfound
        refine ⟨least, hleast, fun other hother q hq hf => ?_⟩
        rcases List.mem_cons.1 hother with rfl | hother
        · rw [hq.eq hfirst, hnot] at hf
          contradiction
        · exact hall other hother q hq hf

theorem exists_least {path : String} {m : Member Node} (h : n.find? path.toList = some m) :
    ∃ address p, StandsAt n.members address p ∧ p.path = path ∧ p.2 = m ∧
      ∀ other q, StandsAt n.members other q → q.path = path →
          other = address ∨ Precedes address other := by
  rw [find?_eq_firstAt, firstAt, Option.map_eq_some_iff] at h
  obtain ⟨p, hfound, rfl⟩ := h
  have hpath : p.path = path := by simpa [String.toList_inj] using List.find?_some hfound
  obtain ⟨address, hp, hleast⟩ :=
    exists_least_of_find? (forall₂_addresses n) (pairwise_addresses n) hfound
  refine ⟨address, p, hp, hpath, rfl, fun other q hq hpath => ?_⟩
  exact hleast other (mem_addresses hq) q hq (by simp [hpath])

theorem mem_properties_of_standsAt (h : StandsAt n.members address p) : p ∈ properties n := by
  generalize hms : n.members = ms at h
  induction h generalizing n with
  | own hm => exact mem_properties_of_mem (hms ▸ List.mem_of_getElem? hm)
  | inner hm _ ih => exact mem_properties_below (hms ▸ List.mem_of_getElem? hm) (ih rfl)

/-- **The first property with a path**, in the order of the text, is the one that is found, and
nothing is found only if no property has the path. -/
theorem find?_least (n : Node) (path : String) :
    (∀ m, n.find? path.toList = some m ↔
      ∃ address p, StandsAt n.members address p ∧ p.path = path ∧ p.2 = m ∧
        ∀ other q, StandsAt n.members other q → q.path = path →
          other = address ∨ Precedes address other) ∧
    (n.find? path.toList = none ↔ ∀ address p, StandsAt n.members address p → p.path ≠ path) := by
  have hnone : n.find? path.toList = none ↔
      ∀ address p, StandsAt n.members address p → p.path ≠ path := by
    refine ⟨fun h address p hp hpath => ?_, fun h => Option.eq_none_iff_forall_ne_some.2 ?_⟩
    · obtain ⟨m, hm⟩ := exists_find?_of_mem_properties (mem_properties_of_standsAt hp)
      rw [hpath, h] at hm
      contradiction
    · intro m hm
      obtain ⟨address, p, hp, hpath, -⟩ := exists_least hm
      exact h address p hp hpath
  refine ⟨fun m => ⟨exists_least, ?_⟩, hnone⟩
  rintro ⟨address, p, hp, hpath, rfl, hleast⟩
  cases hfound : n.find? path.toList with
  | none => exact absurd hpath (hnone.1 hfound address p hp)
  | some m =>
      obtain ⟨least, q, hq, hqpath, rfl, hall⟩ := exists_least hfound
      have hsame : least = address := by
        rcases hleast least q hq hqpath with hsame | hless
        · exact hsame
        · rcases hall address p hp hpath with hsame | hless'
          · exact hsame.symm
          · exact absurd hless' (List.lt_asymm hless)
      rw [hp.eq (hsame ▸ hq)]

end addresses

end LocaleAudit.Json
