import LocaleAudit.Source.Scan

/-!
# LocaleAudit.Proofs.Source

Where usages are.  Whatever is in a source file, all usages that are found in it are told of that
file.

* `Component.allIn_part` — the parts of a template;
* `Source.allIn_usagesIn` — a source file.
-/

namespace LocaleAudit

/-- All usages are in the given file. -/
def Usage.AllIn (file : String) (usages : List Usage) : Prop := ∀ u ∈ usages, u.context.file = file

namespace Usage.AllIn

variable {file : String}

theorem nil : AllIn file [] := fun _ h => nomatch h

theorem flatMap {α : Type} {as : List α} {f : α → List Usage} (h : ∀ a ∈ as, AllIn file (f a)) :
    AllIn file (as.flatMap f) := by
  intro u hu
  obtain ⟨a, ha, hu⟩ := List.mem_flatMap.1 hu
  exact h a ha u hu

theorem map {α : Type} {as : List α} {f : α → Usage} (h : ∀ a, (f a).context.file = file) :
    AllIn file (as.map f) := by
  intro u hu
  obtain ⟨a, -, rfl⟩ := List.mem_map.1 hu
  exact h a

theorem append {us vs : List Usage} (hus : AllIn file us) (hvs : AllIn file vs) :
    AllIn file (us ++ vs) := fun u hu => (List.mem_append.1 hu).elim (hus u) (hvs u)

/-- Usages that are read part by part. -/
theorem flatten_of_mapM {α : Type} {as : List α} {f : α → Option (List Usage)}
    {parts : List (List Usage)} (h : as.mapM f = some parts)
    (hf : ∀ a us, f a = some us → AllIn file us) : AllIn file parts.flatten := by
  induction as generalizing parts with
  | nil =>
      obtain rfl := Option.some.inj h
      exact nil
  | cons a as ih =>
      rw [List.mapM_cons] at h
      obtain ⟨us, hus, h⟩ := Option.bind_eq_some_iff.1 h
      obtain ⟨rest, hrest, h⟩ := Option.bind_eq_some_iff.1 h
      obtain rfl := Option.some.inj h
      exact (hf a us hus).append (ih hrest)

end Usage.AllIn

open Usage Text

namespace Script

theorem allIn_usagesOf (functions : List String) (file : String) (text code : List Char)
    (t : Tree) : AllIn file (usagesOf functions file text code t) :=
  .map fun _ => rfl

theorem allIn_collectUsages {functions : List String} {file : String} {dialect : Dialect}
    {text : List Char} {usages : List Usage}
    (h : collectUsages functions file dialect text = some usages) : AllIn file usages := by
  obtain ⟨t, -, h⟩ := Option.bind_eq_some_iff.1 h
  obtain rfl := Option.some.inj h
  exact allIn_usagesOf _ _ _ _ _

end Script

namespace Component

variable {r : Reader}

theorem allIn_script? {dialect : Script.Dialect} {code : Slice} {usages : List Usage}
    (h : r.script? dialect code = some usages) : AllIn r.file usages := by
  obtain ⟨t, -, h⟩ := Option.bind_eq_some_iff.1 h
  obtain rfl := Option.some.inj h
  exact Script.allIn_usagesOf _ _ _ _ _

theorem allIn_part (part : TemplatePart) : AllIn r.file (r.part part) := by
  cases part with
  | expression code =>
      rw [Reader.part]
      split
      · exact Script.allIn_usagesOf _ _ _ _ _
      · exact .nil
  | statements code =>
      rw [Reader.part]
      cases h : r.script? .ts code with
      | none => exact .nil
      | some usages => exact allIn_script? h
  | key key place =>
      rw [Reader.part]
      intro u hu
      rw [List.mem_singleton.1 hu, Reader.usage, SourceContext.at]
  | keyExpression code place =>
      rw [Reader.part]
      exact .map fun _ => rfl
  | keyDirective code place =>
      rw [Reader.part]
      exact .map fun _ => rfl

theorem allIn_collectUsages {functions : List String} {file : String} {text : List Char}
    {usages : List Usage} (h : collectUsages functions file text = some usages) :
    AllIn file usages := by
  obtain ⟨inScripts, hscripts, h⟩ := Option.bind_eq_some_iff.1 h
  obtain rfl := Option.some.inj h
  have hin : AllIn file inScripts.flatten :=
    .flatten_of_mapM hscripts fun _ _ h => allIn_script? (r := ⟨functions, file, text⟩) h
  intro u hu
  refine hin.append ?_ u (List.mem_mergeSort.1 hu)
  split
  · exact .flatMap fun part _ => allIn_part (r := ⟨functions, file, text⟩) part
  · exact .nil

end Component

theorem Source.allIn_collectUsages {functions : List String} {file : String} {text : List Char}
    {usages : List Usage} (h : collectUsages functions file text = some usages) :
    AllIn file usages := by
  unfold collectUsages at h
  dsimp only at h
  split at h
  · exact Component.allIn_collectUsages h
  · exact Script.allIn_collectUsages h

/-- **The usages of a source file** are in that file. -/
theorem Source.allIn_usagesIn {functions : List String} {root : String} {f : ScannedFile}
    {usages : List Usage} (h : usagesIn functions root f = .ok usages) :
    AllIn (Path.display root f.path) usages := by
  unfold usagesIn at h
  dsimp only at h
  split at h
  · exact nomatch h
  · split at h
    · rename_i husages
      obtain rfl := Except.ok.inj h
      exact allIn_collectUsages husages
    · exact nomatch h

end LocaleAudit
