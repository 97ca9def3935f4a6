import LocaleAudit.Proofs.Script.Keys
import Mathlib.Data.List.Forall2

/-!
# LocaleAudit.Proofs.Script.Preorder

The order in which the calls of a script are recorded.  The address of a part of a tree is the
number of the part at each level on the way down to it.  The visit goes through the addresses in
lexicographic order: a tree comes before its parts, and a part before the next one with all that
stands in it.

* `mem_addresses_iff`, `pairwise_addresses`, `forall₂_subtrees` — the visit comes to every address
  once, in order;
* `usages_in_order` — there is one usage for each call that is recorded, in the order of the
  addresses;
* `broken_key_unrecorded` — a call of a function with a literal that is not text.
-/

namespace LocaleAudit.Script

namespace Tree

/-! ## addresses -/

/-- What stands in a tree at an address. -/
def at? : List Nat → Tree → Option Tree
  | [], t => some t
  | i :: below, t => t.children[i]?.bind (at? below)

/-- The order of the visit. -/
abbrev Precedes (address other : List Nat) : Prop := List.Lex (· < ·) address other

mutual

/-- The addresses in a tree, in the order of the visit. -/
def addresses : Tree → List (List Nat)
  | ident _ | string _ => [[]]
  | template _ substitutions => [] :: addressesFrom 0 substitutions
  | paren inner => [] :: (addresses inner).map (0 :: ·)
  | member _ object _ => [] :: (addresses object).map (0 :: ·)
  | call _ _ callee arguments types =>
    [] :: ((addresses callee).map (0 :: ·) ++ addressesFrom 1 arguments ++
      addressesFrom (1 + arguments.length) types)
  | property _ key value =>
    [] :: (addressesFrom 0 key ++ (addresses value).map (key.length :: ·))
  | group _ parts => [] :: addressesFrom 0 parts

/-- The addresses in parts that are numbered from a number on. -/
def addressesFrom (i : Nat) : List Tree → List (List Nat)
  | [] => []
  | t :: ts => (addresses t).map (i :: ·) ++ addressesFrom (i + 1) ts

end

section addresses

variable {t : Tree} {ts : List Tree} {address : List Nat}

theorem addressesFrom_append (i : Nat) (ts us : List Tree) :
    addressesFrom i (ts ++ us) = addressesFrom i ts ++ addressesFrom (i + ts.length) us := by
  induction ts generalizing i with
  | nil => simp [addressesFrom]
  | cons t ts ih => simp [addressesFrom, ih, Nat.add_assoc, Nat.add_comm 1]

/-- The addresses in a tree are its own, and those in its parts. -/
theorem addresses_eq (t : Tree) : t.addresses = [] :: addressesFrom 0 t.children := by
  cases t <;> simp [addresses, children, addressesFrom, addressesFrom_append]

theorem mem_addressesFrom_iff {i : Nat} :
    address ∈ addressesFrom i ts ↔
      ∃ k part, ts[k]? = some part ∧ ∃ below ∈ part.addresses, address = (i + k) :: below := by
  induction ts generalizing i with
  | nil => simp [addressesFrom]
  | cons t ts ih =>
      rw [addressesFrom, List.mem_append, List.mem_map, ih]
      constructor
      · rintro (⟨below, hbelow, rfl⟩ | ⟨k, part, hk, below, hbelow, rfl⟩)
        · exact ⟨0, t, rfl, below, hbelow, rfl⟩
        · exact ⟨k + 1, part, hk, below, hbelow, by simp; omega⟩
      · rintro ⟨k, part, hk, below, hbelow, rfl⟩
        cases k with
        | zero =>
            obtain rfl : t = part := by simpa using hk
            exact .inl ⟨below, hbelow, rfl⟩
        | succ k => exact .inr ⟨k, part, by simpa using hk, below, hbelow, by simp; omega⟩

/-- **The addresses of a tree** are those at which something stands. -/
theorem mem_addresses_iff : address ∈ t.addresses ↔ ∃ part, t.at? address = some part := by
  induction address generalizing t with
  | nil => simp [addresses_eq, at?]
  | cons i below ih =>
      rw [addresses_eq, List.mem_cons, mem_addressesFrom_iff]
      simp only [reduceCtorEq, false_or, Nat.zero_add, List.cons.injEq, at?,
        Option.bind_eq_some_iff]
      constructor
      · rintro ⟨_, part, hpart, _, hbelow, rfl, rfl⟩
        obtain ⟨inner, hinner⟩ := ih.1 hbelow
        exact ⟨inner, part, hpart, hinner⟩
      · rintro ⟨inner, part, hpart, hinner⟩
        exact ⟨i, part, hpart, below, ih.2 ⟨inner, hinner⟩, rfl, rfl⟩

theorem pairwise_addressesFrom (hts : ∀ t ∈ ts, t.addresses.Pairwise Precedes) (i : Nat) :
    (addressesFrom i ts).Pairwise Precedes := by
  induction ts generalizing i with
  | nil => exact .nil
  | cons t ts ih =>
      obtain ⟨ht, hts⟩ := List.forall_mem_cons.1 hts
      rw [addressesFrom, List.pairwise_append, List.pairwise_map]
      refine ⟨ht.imp .cons, ih hts (i + 1), fun address h other hother => ?_⟩
      obtain ⟨below, -, rfl⟩ := List.mem_map.1 h
      obtain ⟨k, -, -, below', -, rfl⟩ := mem_addressesFrom_iff.1 hother
      exact .rel (by omega)

/-- **The visit** goes through the addresses in ascending order. -/
theorem pairwise_addresses (t : Tree) : t.addresses.Pairwise Precedes := by
  induction t using child_induction with
  | step t ih =>
      rw [addresses_eq, List.pairwise_cons]
      refine ⟨fun address h => ?_, pairwise_addressesFrom ih 0⟩
      obtain ⟨k, -, -, below, -, rfl⟩ := mem_addressesFrom_iff.1 h
      exact .nil

/-- **The visit** comes at each address to what stands there. -/
theorem forall₂_subtrees (t : Tree) :
    List.Forall₂ (fun address part => t.at? address = some part) t.addresses t.subtrees := by
  induction t using child_induction with
  | step t ih =>
      -- the parts from a number on, whatever stands in front of them
      have hfrom (ts : List Tree) (hts : ∀ part ∈ ts, List.Forall₂
            (fun address inner => part.at? address = some inner) part.addresses part.subtrees)
          (i : Nat) (hall : t.children.drop i = ts) :
          List.Forall₂ (fun address inner => t.at? address = some inner)
            (addressesFrom i ts) (ts.flatMap subtrees) := by
        induction ts generalizing i with
        | nil => exact .nil
        | cons part ts ihts =>
            obtain ⟨hpart, hts⟩ := List.forall_mem_cons.1 hts
            have hi : t.children[i]? = some part := by
              rw [← List.head?_drop, hall, List.head?_cons]
            have hrest : t.children.drop (i + 1) = ts := by
              rw [← List.tail_drop, hall, List.tail_cons]
            refine List.rel_append (List.forall₂_map_left_iff.2 ?_) (ihts hts (i + 1) hrest)
            exact hpart.imp fun address inner h => by simpa [at?, hi] using h
      rw [addresses_eq, subtrees_eq]
      exact .cons rfl (hfrom t.children ih 0 List.drop_zero)

/-- What stands in a tree comes behind it. -/
theorem precedes_append (address : List Nat) {below : List Nat} (h : below ≠ []) :
    Precedes address (address ++ below) := by
  induction address with
  | nil =>
      obtain ⟨i, below, rfl⟩ := List.exists_cons_of_ne_nil h
      exact .nil
  | cons i address ih => exact .cons ih

/-- In an ascending list of addresses the lesser of two stands in front of the other one. -/
theorem pair_sublist_of_precedes {other : List Nat} {all : List (List Nat)}
    (hall : all.Pairwise Precedes) (h : address ∈ all) (hother : other ∈ all)
    (hless : Precedes address other) : [address, other].Sublist all := by
  obtain ⟨front, back, rfl⟩ := List.append_of_mem h
  have hnot : other ∉ front := fun hmem =>
    List.lt_asymm hless ((List.pairwise_append.1 hall).2.2 other hmem address List.mem_cons_self)
  have hne : other ≠ address := by
    rintro rfl
    exact List.lt_asymm hless hless
  have hback : other ∈ back := by simpa [hnot, hne] using hother
  have hpair : [address, other].Sublist (address :: back) :=
    (List.singleton_sublist.2 hback).cons_cons address
  exact hpair.trans (List.sublist_append_right front _)

end addresses

/-! ## the calls that are recorded -/

/-- The addresses of the calls in a tree that are recorded. -/
def places (functions : List String) (t : Tree) : List (List Nat) :=
  t.addresses.filter fun address => ((t.at? address).bind (keyCall? functions)).isSome

theorem mem_places_iff {functions : List String} {t : Tree} {address : List Nat} :
    address ∈ t.places functions ↔
      ∃ s, t.at? address = some s ∧ ∃ k, Uses functions k false false s := by
  simp only [places, List.mem_filter, mem_addresses_iff, Option.isSome_iff_exists,
    Option.bind_eq_some_iff, keyCall?_eq_some_iff]
  constructor
  · rintro ⟨-, k, s, hs, hk⟩
    exact ⟨s, hs, k, hk⟩
  · rintro ⟨s, hs, k, hk⟩
    exact ⟨⟨s, hs⟩, k, s, hs, hk⟩

theorem pairwise_places (functions : List String) (t : Tree) :
    (t.places functions).Pairwise Precedes :=
  t.pairwise_addresses.filter _

/-- **Each call at one of the places** is recorded, in the order of the places. -/
theorem forall₂_keyCalls (functions : List String) (t : Tree) :
    List.Forall₂ (fun address k => ∃ s, t.at? address = some s ∧ Uses functions k false false s)
      (t.places functions) (t.keyCalls functions) := by
  rw [places, ← List.filterMap_eq_filter, keyCalls_eq_filterMap]
  refine List.rel_filterMap (fun address s hs => ?_) t.forall₂_subtrees
  cases hk : s.keyCall? functions with
  | none => simp [Option.guard, hs, hk]
  | some k => simpa [Option.guard, hs, hk] using keyCall?_eq_some_iff.1 hk

end Tree

open LocaleAudit.Script.Tree

/-- **The usages in a script** that can be parsed: there is exactly one for each place in its tree
at which a function is called, by itself or as a member, with a literal that is text, and no other
one.  They come in the order of the places, so that a call comes before the calls that stand in
it, and each has the text of its literal and the place in the text at which its call starts. -/
theorem usages_in_order (functions : List String) (file : String) {dialect : Dialect}
    {text : List Char} {t : Tree} (h : parseModule dialect (withoutMark text) = some t) :
    ∃ (usages : List Usage) (places : List (List Nat)),
      collectUsages functions file dialect text = some usages ∧
      (∀ address, address ∈ places ↔
        ∃ s, t.at? address = some s ∧ ∃ k, Uses functions k false false s) ∧
      places.Pairwise Precedes ∧
      (∀ address below, below ≠ [] → address ∈ places → address ++ below ∈ places →
        [address, address ++ below].Sublist places) ∧
      List.Forall₂ (fun address u => ∃ s k, t.at? address = some s ∧
          Uses functions k false false s ∧
          u = ⟨k.key, .at file text (positionOf (withoutMark text) k.start)⟩)
        places usages := by
  refine ⟨usagesOf functions file text (withoutMark text) t, t.places functions,
    by simp [collectUsages, h], fun address => mem_places_iff, t.pairwise_places functions,
    fun address below hbelow hmem hmem' => ?_, ?_⟩
  · exact pair_sublist_of_precedes (t.pairwise_places functions) hmem hmem'
      (precedes_append address hbelow)
  · refine List.forall₂_map_right_iff.2 ((t.forall₂_keyCalls functions).imp ?_)
    rintro address k ⟨s, hs, huses⟩
    exact ⟨s, k, hs, huses, rfl⟩

/-- A call that stands in the arguments of another one. -/
def nestedCall : Tree :=
  .call false 0 (.ident "t")
    [.string (some "a"), .call false 7 (.ident "t") [.string (some "b")] []] []

set_option maxRecDepth 2000 in
theorem usages_in_order_nestedCall :
    parseModule .js (withoutMark "t('a', t('b'))".toList) = some (singleExpression nestedCall) ∧
      ∃ (usages : List Usage) (places : List (List Nat)),
        collectUsages ["t"] "a.js" .js "t('a', t('b'))".toList = some usages ∧
        [[0, 0], [0, 0, 2]].Sublist places ∧ places.length = usages.length := by
  have hparse : parseModule .js (withoutMark "t('a', t('b'))".toList) =
      some (singleExpression nestedCall) := by rfl
  obtain ⟨usages, places, hcollect, hmem, -, hnested, hall⟩ := usages_in_order ["t"] "a.js" hparse
  have houter : [0, 0] ∈ places :=
    (hmem _).2 ⟨_, rfl, ⟨"a", 0⟩, .call List.mem_cons_self .bare .string⟩
  have hinner : [0, 0] ++ [2] ∈ places :=
    (hmem _).2 ⟨_, rfl, ⟨"b", 7⟩, .call List.mem_cons_self .bare .string⟩
  exact ⟨hparse, usages, places, hcollect, hnested _ _ (List.cons_ne_nil _ _) houter hinner,
    hall.length_eq⟩

set_option maxRecDepth 2000 in
/-- **A literal that is not text** has no usage: half of a pair of units that stand for one
character. -/
theorem broken_key_unrecorded :
    parseModule .js (withoutMark "t('\\ud800')".toList) =
        some (singleExpression (.call false 0 (.ident "t") [.string none] [])) ∧
      collectUsages ["t"] "a.js" .js "t('\\ud800')".toList = some [] :=
  ⟨by rfl, by decide +kernel⟩

end LocaleAudit.Script
