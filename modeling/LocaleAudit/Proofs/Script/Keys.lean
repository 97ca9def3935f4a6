import LocaleAudit.Proofs.Script.Tree
import LocaleAudit.Script.Keys
import Mathlib.Data.List.Basic

/-!
# LocaleAudit.Proofs.Script.Keys

Which calls are recorded.  What a call says, namely the function and the key, does not depend on how
the function is reached, but the calls of optional chains are passed over: those are never recorded,
and the key of such a call is not seen.

* `keyCall?_eq_some_iff` — the calls that are recorded;
* `keyCalls_eq_filterMap` — they are looked for everywhere in a tree;
* `mem_usages_iff` — the usages in a script;
* `optional_call_unseen` — a call that has no usage.
-/

namespace LocaleAudit.Script

namespace Tree

/-! ## calls of translation functions -/

/-- A callee names a function, bare or as a member whose name is not computed; `reached` if that
member is reached through an optional chain. -/
inductive Names (name : String) : (reached : Bool) → Tree → Prop
  | bare : Names name false (.ident name)
  | member {reached : Bool} {object : Tree} : Names name reached (.member reached object name)
  | paren {reached : Bool} {inner : Tree} (hinner : Names name reached inner) :
      Names name reached (.paren inner)

/-- An argument is a string that is settled by the text of the script. -/
inductive Spells (s : String) : Tree → Prop
  | string : Spells s (.string (some s))
  | template : Spells s (.template (some s) [])
  | paren {inner : Tree} (hinner : Spells s inner) : Spells s (.paren inner)

/-- A tree is a call of one of the functions with a key; `chained` if the call belongs to an
optional chain, and `reached` if the function is reached through one. -/
inductive Uses (functions : List String) (k : KeyCall) : (chained reached : Bool) → Tree → Prop
  | call {chained reached : Bool} {name : String} {callee argument : Tree}
      {arguments types : List Tree} (hname : name ∈ functions) (hcallee : Names name reached callee)
      (hkey : Spells k.key argument) :
      Uses functions k chained reached
        (.call chained k.start callee (argument :: arguments) types)

theorem calleeName?_eq_some_iff {name : String} {t : Tree} :
    t.calleeName? = some name ↔ Names name false t := by
  constructor
  · fun_induction calleeName? t with
    | case1 n => rintro ⟨⟩; exact .bare
    | case2 object n => rintro ⟨⟩; exact .member
    | case3 inner ih => exact fun h => .paren (ih h)
    | case4 t => intro h; contradiction
  · generalize hreached : false = reached
    intro h
    induction h with
    | bare => rfl
    | member => subst hreached; rfl
    | paren _ ih => exact ih hreached

theorem staticString?_eq_some_iff {s : String} {t : Tree} :
    t.staticString? = some s ↔ Spells s t := by
  constructor
  · fun_induction staticString? t with
    | case1 value => rintro rfl; exact .string
    | case2 value => rintro rfl; exact .template
    | case3 inner ih => exact fun h => .paren (ih h)
    | case4 t => intro h; contradiction
  · intro h
    induction h with
    | string => rfl
    | template => rfl
    | paren _ ih => exact ih

/-- **The calls that are recorded** are those of the functions, with keys that are settled, in which
no optional chain takes part. -/
theorem keyCall?_eq_some_iff {functions : List String} {k : KeyCall} {t : Tree} :
    t.keyCall? functions = some k ↔ Uses functions k false false t := by
  constructor
  · intro h
    unfold keyCall? at h
    split at h
    · split at h
      · rename_i name hname
        split at h
        · rename_i hmem
          obtain ⟨key, hkey, rfl⟩ := Option.map_eq_some_iff.1 h
          exact .call (List.contains_iff_mem.1 hmem) (calleeName?_eq_some_iff.1 hname)
            (staticString?_eq_some_iff.1 hkey)
        · contradiction
      · contradiction
    · contradiction
  · rintro ⟨hname, hcallee, hkey⟩
    rw [keyCall?, calleeName?_eq_some_iff.2 hcallee, staticString?_eq_some_iff.2 hkey]
    exact if_pos (List.contains_iff_mem.2 hname)

/-- **The calls in a tree** are looked for everywhere in it, in the order of the visit. -/
theorem keyCalls_eq_filterMap (functions : List String) (t : Tree) :
    t.keyCalls functions = t.subtrees.filterMap (keyCall? functions) := by
  induction t using child_induction with
  | step t ih =>
      rw [keyCalls_eq, subtrees_eq, List.filterMap_eq_flatMap_toList, List.flatMap_cons,
        List.flatMap_assoc]
      simp only [← List.filterMap_eq_flatMap_toList]
      rw [List.flatMap_congr ih]

end Tree

open LocaleAudit.Script.Tree

/-! ## usages -/

/-- **The usages in a script**: a script that can be parsed has usages, and these are those of the
calls that stand anywhere in its tree, as long as neither the call nor the function belongs to an
optional chain. -/
theorem mem_usages_iff (functions : List String) (file : String) {dialect : Dialect}
    {text : List Char} {t : Tree} (h : parseModule dialect (withoutMark text) = some t) :
    ∃ usages, collectUsages functions file dialect text = some usages ∧
      ∀ u, u ∈ usages ↔ ∃ s ∈ t.subtrees, ∃ k, Uses functions k false false s ∧
        u = ⟨k.key, .at file text (positionOf (withoutMark text) k.start)⟩ := by
  refine ⟨usagesOf functions file text (withoutMark text) t, by simp [collectUsages, h], ?_⟩
  intro u
  simp only [usagesOf, List.mem_map, keyCalls_eq_filterMap, List.mem_filterMap,
    keyCall?_eq_some_iff]
  constructor
  · rintro ⟨k, ⟨s, hs, huses⟩, rfl⟩
    exact ⟨s, hs, k, huses, rfl⟩
  · rintro ⟨s, hs, k, huses, rfl⟩
    exact ⟨k, ⟨s, hs, huses⟩, rfl⟩

/-- The tree of a script that is a single expression. -/
def singleExpression (t : Tree) : Tree := .group .statement [.group .statement [t]]

theorem mem_subtrees_singleExpression {s t : Tree} :
    s ∈ (singleExpression t).subtrees ↔
      s = singleExpression t ∨ s = .group .statement [t] ∨ s ∈ t.subtrees := by
  simp [singleExpression, subtrees, subtreesIn]

/-- A call that stands in the arguments of an optional one. -/
def innerCall : Tree := .call false 4 (.ident "t") [.string (some "k")] []

set_option maxRecDepth 2000 in
theorem mem_usages_innerCall :
    parseModule .js (withoutMark "t?.(t('k'))".toList) = some (singleExpression
      (.call true 0 (.ident "t") [innerCall] [.group .typeExpr []])) ∧
      ∃ usages, collectUsages ["t"] "a.js" .js "t?.(t('k'))".toList = some usages ∧
        ⟨"k", ⟨"a.js", ⟨1, 5⟩, "t?.(t('k'))"⟩⟩ ∈ usages := by
  have hparse : parseModule .js (withoutMark "t?.(t('k'))".toList) = some (singleExpression
      (.call true 0 (.ident "t") [innerCall] [.group .typeExpr []])) := by rfl
  have huses : Uses ["t"] ⟨"k", 4⟩ false false innerCall := .call List.mem_cons_self .bare .string
  obtain ⟨usages, hcollect, hmem⟩ := mem_usages_iff ["t"] "a.js" hparse
  refine ⟨hparse, usages, hcollect, (hmem _).2 ⟨innerCall, ?_, _, huses, by decide +kernel⟩⟩
  exact mem_subtrees_singleExpression.2 (.inr (.inr (by simp [subtrees, subtreesIn, innerCall])))

/-- A call that is an optional one. -/
def optionalCall : Tree := .call true 0 (.ident "t") [.string (some "x")] [.group .typeExpr []]

set_option maxRecDepth 2000 in
/-- **An optional call is not seen**, although it is one of a function with a key. -/
theorem optional_call_unseen :
    parseModule .js (withoutMark "t?.('x')".toList) = some (singleExpression optionalCall) ∧
      optionalCall ∈ (singleExpression optionalCall).subtrees ∧
      Uses ["t"] ⟨"x", 0⟩ true false optionalCall ∧
      collectUsages ["t"] "a.js" .js "t?.('x')".toList = some [] := by
  refine ⟨by rfl, ?_, .call List.mem_cons_self .bare .string, by decide +kernel⟩
  exact mem_subtrees_singleExpression.2 (.inr (.inr (by simp [subtrees, optionalCall])))

end LocaleAudit.Script
