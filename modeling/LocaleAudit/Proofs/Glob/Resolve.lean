import LocaleAudit.Proofs.Glob.Expand
import LocaleAudit.Proofs.Path
import Mathlib.Data.List.Forall2

/-!
# LocaleAudit.Proofs.Glob.Resolve

Patterns behind the root of a project.  A root without wildcards leads to one place, and what is
behind it only leads further down unless a component of the pattern stands for two dots.

* `parse_eq_of_plain` — the pattern of a text without wildcards;
* `componentPatterns_resolve` — the patterns of a root and of what is behind it;
* `anchored_resolve` — the components of a pattern behind a root.
-/

namespace LocaleAudit.Glob

open Text LocaleAudit.Path Place Entry

/-! ## texts without wildcards -/

/-- The character stands for itself, wherever it is in a pattern. -/
def Plain (c : Char) : Prop := c ≠ '?' ∧ c ≠ '[' ∧ c ≠ '*'

instance (c : Char) : Decidable (Plain c) := inferInstanceAs (Decidable (_ ∧ _))

theorem readFrom_eq_of_plain {text : List Char} (h : ∀ c ∈ text, Plain c) (fresh : Bool)
    (place : Nat) : readFrom (.between fresh) place text = .ok (text.map .char) := by
  induction text generalizing fresh place with
  | nil => rfl
  | cons c text ih =>
      obtain ⟨⟨hany, hopen, hstar⟩, htext⟩ := List.forall_mem_cons.1 h
      rw [readFrom.eq_def]
      dsimp only
      rw [if_neg hany, if_neg hopen, if_neg hstar, ih htext]
      rfl

/-- The pattern of a text without wildcards. -/
theorem parse_eq_of_plain {text : String} (h : ∀ c ∈ text.toList, Plain c) :
    Pattern.parse text = .ok (text.toList.map .char) :=
  readFrom_eq_of_plain h true 0

theorem literal?_map_char (text : List Char) : Pattern.literal? (text.map .char) = some text := by
  induction text with
  | nil => rfl
  | cons c text ih => rw [List.map_cons, Pattern.literal?, ih, Option.map_some]

theorem literalComponent_text {c : Component} (h : ProperComponent c) :
    literalComponent c.text.toList = c := by
  rcases h with rfl | ⟨name, rfl, -, hcurrent, hparent, -⟩
  · rfl
  · have hcurrent : name.toList ≠ ['.'] := fun heq => hcurrent (String.toList_inj.1 heq)
    have hparent : name.toList ≠ ['.', '.'] := fun heq => hparent (String.toList_inj.1 heq)
    rw [Component.text, literalComponent, if_neg hcurrent, if_neg hparent, String.ofList_toList]

/-! ## patterns behind a root -/

/-- The pattern of a component. -/
def ofComponent (c : Component) : Except Fault Pattern := Pattern.parse c.text

/-- A component of the pattern stands for two dots. -/
def Climbs (pattern : String) : Prop :=
  ∃ c ∈ steps pattern, ∃ q ∈ (ofComponent c).toOption, q.climbs = true

instance (pattern : String) : Decidable (Climbs pattern) :=
  inferInstanceAs (Decidable (∃ c ∈ steps pattern, ∃ q ∈ (ofComponent c).toOption, _))

theorem climbs_eq_false_of_not_climbs {pattern : String} (h : ¬ Climbs pattern) :
    ∀ c ∈ steps pattern, ∀ q ∈ (ofComponent c).toOption, q.climbs = false :=
  fun c hc q hq => Bool.eq_false_iff.2 fun hclimbs => h ⟨c, hc, q, hq, hclimbs⟩

/-- Patterns are read one by one. -/
theorem mapM_eq_ok_iff {cs : List Component} {qs : List Pattern} :
    cs.mapM ofComponent = .ok qs ↔ List.Forall₂ (ofComponent · = .ok ·) cs qs := by
  induction cs generalizing qs with
  | nil =>
      rw [List.forall₂_nil_left_iff]
      exact ⟨fun h => (Except.ok.inj h).symm, fun h => by rw [h]; rfl⟩
  | cons c cs ih =>
      rw [List.mapM_cons, List.forall₂_cons_left_iff]
      constructor
      · intro h
        cases hfirst : ofComponent c with
        | error fault =>
            rw [hfirst] at h
            contradiction
        | ok q =>
            cases hrest : cs.mapM ofComponent with
            | error fault =>
                rw [hfirst, hrest] at h
                contradiction
            | ok qs' =>
                rw [hfirst, hrest] at h
                exact ⟨q, qs', rfl, ih.1 hrest, (Except.ok.inj h).symm⟩
      · rintro ⟨q, qs', hfirst, hrest, rfl⟩
        rw [hfirst, ih.2 hrest]
        rfl

theorem climbs_eq_false_of_forall₂ {cs : List Component} {qs : List Pattern}
    (hcs : ∀ c ∈ cs, ∀ q ∈ (ofComponent c).toOption, q.climbs = false)
    (h : List.Forall₂ (ofComponent · = .ok ·) cs qs) : ∀ q ∈ qs, q.climbs = false := by
  induction h with
  | nil => exact fun _ hq => nomatch hq
  | @cons c q cs qs hfirst _ ih =>
      obtain ⟨hc, hcs⟩ := List.forall_mem_cons.1 hcs
      exact List.forall_mem_cons.2 ⟨hc q (by rw [hfirst]; rfl), ih hcs⟩

/-- The patterns of components without wildcards, and of others that do not stand for two dots. -/
theorem anchored_of_forall₂ {anchor cs : List Component} {qs : List Pattern}
    (hanchor : ∀ c ∈ anchor, ProperComponent c ∧ ∀ d ∈ c.text.toList, Plain d)
    (hcs : ∀ c ∈ cs, ∀ q ∈ (ofComponent c).toOption, q.climbs = false)
    (h : List.Forall₂ (ofComponent · = .ok ·) (anchor ++ cs) qs) : Anchored anchor qs := by
  induction anchor generalizing qs with
  | nil => exact ⟨[], qs, rfl, rfl, climbs_eq_false_of_forall₂ hcs h⟩
  | cons c anchor ih =>
      obtain ⟨⟨hproper, hplain⟩, hanchor⟩ := List.forall_mem_cons.1 hanchor
      cases h with
      | @cons _ q _ qs hfirst hrest =>
          obtain rfl := Except.ok.inj ((parse_eq_of_plain hplain).symm.trans hfirst)
          obtain ⟨literals, rest, rfl, hliterals, hclimbs⟩ := ih hanchor hrest
          refine ⟨c.text.toList.map .char :: literals, rest, rfl, ?_, hclimbs⟩
          rw [List.map_cons, List.map_cons, hliterals, literal?_map_char, Option.map_some,
            literalComponent_text hproper]

/-- **The patterns between the slashes of a pattern behind a root** are those of the components of
both. -/
theorem componentPatterns_resolve {root pattern : String}
    (h : isAbsolute (resolve root pattern) = false) :
    componentPatterns (resolve root pattern) =
      (Pattern.parse (resolve root pattern)).bind fun _ =>
        if steps root ++ steps pattern = [] then .ok [[.char '.']]
        else (steps root ++ steps pattern).mapM ofComponent := by
  have hcomponent : ofComponent = fun c => Pattern.parse (String.ofList c.text.toList) :=
    funext fun c => by rw [ofComponent, String.ofList_toList]
  rw [componentPatterns, pieces_resolve h]
  refine congrArg _ (funext fun _ => ?_)
  split
  · rfl
  · rw [List.mapM_map, hcomponent]
    rfl

/-- The patterns of a pattern behind a root, if it is not malformed. -/
theorem eq_or_forall₂_of_componentPatterns {root pattern : String}
    (habsolute : isAbsolute (resolve root pattern) = false) {qs : List Pattern}
    (h : componentPatterns (resolve root pattern) = .ok qs) :
    steps root ++ steps pattern = [] ∧ qs = [[.char '.']] ∨
      steps root ++ steps pattern ≠ [] ∧
        List.Forall₂ (ofComponent · = .ok ·) (steps root ++ steps pattern) qs := by
  rw [componentPatterns_resolve habsolute] at h
  cases hwhole : Pattern.parse (resolve root pattern) with
  | error fault =>
      rw [hwhole] at h
      contradiction
  | ok whole =>
      rw [hwhole, Except.bind] at h
      split at h
      · rename_i hnone
        exact .inl ⟨hnone, (Except.ok.inj h).symm⟩
      · rename_i hsome
        exact .inr ⟨hsome, mapM_eq_ok_iff.1 h⟩

/-- Behind a root there is always some pattern. -/
theorem ne_nil_of_componentPatterns {root pattern : String}
    (habsolute : isAbsolute (resolve root pattern) = false) {qs : List Pattern}
    (h : componentPatterns (resolve root pattern) = .ok qs) : qs ≠ [] := by
  rcases eq_or_forall₂_of_componentPatterns habsolute h with ⟨-, rfl⟩ | ⟨hsome, hall⟩
  · exact List.cons_ne_nil _ _
  · rintro rfl
    exact hsome (List.forall₂_nil_right_iff.1 hall)

/-- **A file behind a root** is found by its name. -/
theorem exists_name_of_find {tree : Entry} (htree : tree.Proper) {root pattern : String}
    {places : List Place} (h : find tree (resolve root pattern) = .ok places) {p : Place}
    (hp : p ∈ places) (hfile : p.isDirectory = false) :
    ∃ above name, p.path = above ++ [.name name] := by
  obtain ⟨habsolute, qs, hqs, hin⟩ := exists_of_mem_find h hp
  rcases (stands_of_find htree h p hp).eq_start_or_exists_name hfile with rfl | hname
  · obtain ⟨q, qs, rfl⟩ := List.exists_cons_of_ne_nil (ne_nil_of_componentPatterns habsolute hqs)
    rw [expand_eq_nil_of_file hfile] at hin
    contradiction
  · exact hname

/-- **A pattern behind a root** starts where the root is, if no component of it stands for two
dots. -/
theorem anchored_resolve {root pattern : String} (hroot : ∀ d ∈ root.toList, Plain d)
    (hpattern : ¬ Climbs pattern) (habsolute : isAbsolute (resolve root pattern) = false)
    {qs : List Pattern} (h : componentPatterns (resolve root pattern) = .ok qs) :
    Anchored (steps root) qs := by
  have hanchor : ∀ c ∈ steps root, ProperComponent c ∧ ∀ d ∈ c.text.toList, Plain d :=
    fun c hc => ⟨properComponent_of_mem_steps (relative_of_resolve habsolute).1 c hc,
      fun d hd => hroot d (mem_of_mem_text_steps hc hd)⟩
  rcases eq_or_forall₂_of_componentPatterns habsolute h with ⟨hnone, rfl⟩ | ⟨-, hall⟩
  · rw [(List.append_eq_nil_iff.1 hnone).1]
    exact ⟨[], _, rfl, rfl, by decide⟩
  · exact anchored_of_forall₂ hanchor (climbs_eq_false_of_not_climbs hpattern) hall

end LocaleAudit.Glob
