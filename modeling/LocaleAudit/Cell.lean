/-!
# LocaleAudit.Cell

Values that are worked out when they are first asked for, and kept.

* `force_filled`, `filled_force` — a value that is kept is the one that is given from then on.
-/

namespace LocaleAudit

/-- A value, or room for one. -/
structure Cell (α : Type) where
  /-- The value, once it has been worked out. -/
  value : Option α := none
deriving Repr, DecidableEq, Inhabited

namespace Cell

variable {α : Type}

/-- The value of a cell, and the cell with its value. -/
def force (make : Unit → α) (c : Cell α) : α × Cell α :=
  match c.value with
  | some a => (a, c)
  | none =>
    let a := make ()
    (a, ⟨some a⟩)

@[simp] theorem force_filled (make : Unit → α) (a : α) : force make ⟨some a⟩ = (a, ⟨some a⟩) := rfl

@[simp] theorem force_empty (make : Unit → α) : force make ⟨none⟩ = (make (), ⟨some (make ())⟩) :=
  rfl

/-- A cell that has been asked for its value has it. -/
theorem filled_force (make : Unit → α) (c : Cell α) :
    (c.force make).2 = ⟨some (c.force make).1⟩ := by
  obtain ⟨_ | a⟩ := c <;> rfl

end Cell

end LocaleAudit
