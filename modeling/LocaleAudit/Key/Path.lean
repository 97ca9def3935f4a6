/-!
# LocaleAudit.Key.Path

Keys as dotted paths. A key is below another if it goes on with a dot behind it.

* `mem_ancestors` — the ancestors of a key are the keys that it is below of.
-/

namespace LocaleAudit.Key

/-- The key is the other one followed by a dot and more. -/
def IsBelow (key ancestor : List Char) : Prop := (ancestor ++ ['.']) <+: key

instance (key ancestor : List Char) : Decidable (IsBelow key ancestor) :=
  inferInstanceAs (Decidable ((ancestor ++ ['.']) <+: key))

/-- What stands in front of each dot of a key, the shortest first. -/
def ancestors : List Char → List (List Char)
  | [] => []
  | c :: cs => (if c = '.' then [[]] else []) ++ (ancestors cs).map (c :: ·)

theorem mem_ancestors {ancestor key : List Char} :
    ancestor ∈ ancestors key ↔ IsBelow key ancestor := by
  induction key generalizing ancestor with
  | nil => simp [ancestors, IsBelow]
  | cons c cs ih =>
    cases ancestor with
    | nil =>
      simp only [ancestors, List.mem_append, IsBelow, List.nil_append, List.cons_prefix_cons,
        List.nil_prefix, and_true]
      by_cases h : c = '.'
      · simp [h]
      · simp [h, eq_comm]
    | cons a as =>
      simp only [ancestors, List.mem_append, List.mem_map, ih, IsBelow, List.cons_append,
        List.cons_prefix_cons, List.cons.injEq]
      by_cases h : c = '.'
      · grind
      · simp only [h, ite_false, List.not_mem_nil, false_or]
        grind

/-- What stands in front of the first dot and what stands behind it. -/
def splitFirst? : List Char → Option (List Char × List Char)
  | [] => none
  | c :: cs =>
    if c = '.' then some ([], cs) else (splitFirst? cs).map fun (a, b) => (c :: a, b)

/-- A key behind a name and a dot. -/
def under (name key : String) : String := name ++ "." ++ key

end LocaleAudit.Key
