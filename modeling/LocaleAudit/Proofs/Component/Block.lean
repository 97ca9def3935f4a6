import LocaleAudit.Component.Block
import LocaleAudit.Proofs.Text.Slice

/-!
# LocaleAudit.Proofs.Component.Block

Where the blocks of a component stand in it.

* `content_of_templateBlock?` — the content of the template is a part of the component.
-/

namespace LocaleAudit.Component

open Text Slice

/-- The tag that opens a block is not empty. -/
theorem took_of_openTag? {name : List Char} {s attributes rest : Slice}
    (h : openTag? name s = some (attributes, rest)) : ∃ cs, cs ≠ [] ∧ Took s cs rest := by
  unfold openTag? at h
  split at h
  · contradiction
  · rw [Option.ite_none_left_eq_some] at h
    obtain ⟨cs, hcs⟩ := behind_drop (name.length + 1) s
    exact ⟨_, by simp, hcs.trans (took_of_breakOn? h.2).2⟩

theorem took_of_findTemplate? {s attributes rest : Slice}
    (h : findTemplate? s = some (attributes, rest)) : ∃ cs, cs ≠ [] ∧ Took s cs rest := by
  fun_induction findTemplate? s with
  | case1 => contradiction
  | case2 s _ found hfound =>
      obtain rfl := Option.some.inj h
      exact took_of_openTag? hfound
  | case3 s _ _ ih =>
      obtain ⟨cs, hne, hcs⟩ := ih h
      obtain ⟨first, hfirst⟩ := behind_drop 1 s
      exact ⟨first ++ cs, by simp [hne], hfirst.trans hcs⟩

/-- The content of the template stands in the component, behind its opening tag. -/
theorem content_of_templateBlock? {text : List Char} {b : Block}
    (h : templateBlock? text = some b) :
    ∃ front back, front ≠ [] ∧ text = front ++ b.content.text ++ back ∧
      b.content.offset = byteLength front := by
  obtain ⟨⟨attributes, inner⟩, hfind, h⟩ := Option.bind_eq_some_iff.1 h
  obtain ⟨content, hcontent, h⟩ := Option.bind_eq_some_iff.1 h
  obtain rfl := Option.some.inj h
  obtain ⟨front, hne, htook⟩ := took_of_findTemplate? hfind
  obtain ⟨back, hback⟩ := exists_of_beforeLast? hcontent
  refine ⟨front, back, hne, ?_, ?_⟩
  · rw [List.append_assoc]
    exact hback ▸ htook.text
  · exact htook.offset.trans (Nat.zero_add _)

end LocaleAudit.Component
