import LocaleAudit.Proofs.Path

/-!
# LocaleAudit.Proofs.Path.Display

Paths as they are shown.  A path behind a root has the steps of both, and a path is shown by its
steps behind those of the root.  So what is resolved behind a root is shown as it was given, but for
single dots, needless slashes and backslashes, whatever the root is.

* `steps_normalize`, `normalize_normalize` — a normal form has the steps of the path, and is its own;
* `steps_resolve` — the steps of a resolved path;
* `display_resolve` — resolving and showing are inverse.
-/

namespace LocaleAudit.Path

open Place

/-! ## normal forms -/

/-- A path from the root of the file system has the steps that it is put together from. -/
theorem steps_ofComponents_root {cs : List Component} (h : ∀ c ∈ cs, ProperComponent c) :
    steps (ofComponents (.root :: cs)) = .root :: cs := by
  have htext : (ofComponents (.root :: cs)).toList = '/' :: (ofComponents cs).toList := by
    rw [toList_ofComponents h, ofComponents, String.toList_ofList]
  have hcs := steps_ofComponents h
  rw [steps_eq, isAbsolute_ofComponents h, if_neg Bool.false_ne_true, List.nil_append] at hcs
  rw [steps_eq, isAbsolute, htext, Text.pieces, if_pos rfl, List.flatMap_cons, hcs]
  rfl

/-- **The steps of a normal form** are those of the path. -/
theorem steps_normalize (path : String) : steps (normalize path) = steps path := by
  cases h : isAbsolute path with
  | false => rw [normalize, steps_ofComponents (properComponent_of_mem_steps h)]
  | true =>
      have hsteps := steps_eq path
      rw [h, if_pos rfl, List.singleton_append] at hsteps
      rw [normalize, hsteps, steps_ofComponents_root properComponent_of_mem_pieces]

/-- **A normal form is its own.** -/
theorem normalize_normalize (path : String) : normalize (normalize path) = normalize path := by
  rw [normalize, steps_normalize, normalize]

/-! ## resolved paths -/

section resolved

variable {path : String} (h : isAbsolute path = false)
include h

/-- A path behind a root is put together from the steps of both. -/
theorem resolve_of_relative (root : String) :
    resolve root path =
      if ofComponents (steps root ++ steps path) = "" then "."
      else ofComponents (steps root ++ steps path) := by
  simp only [resolve, h, normalize, steps_join h, String.isEmpty_iff, Bool.false_eq_true, if_false]

/-- **The steps of a path behind a root**, whatever the root is. -/
theorem steps_resolve (root : String) :
    steps (resolve root path) = steps root ++ steps path := by
  have hnormal : steps (ofComponents (steps root ++ steps path)) = steps root ++ steps path := by
    rw [← steps_join h, ← normalize, steps_normalize]
  rw [resolve_of_relative h]
  split
  · rename_i hempty
    rw [← hnormal, hempty]
    decide
  · exact hnormal

/-- Only the steps of a path count behind a root. -/
theorem resolve_congr {path' : String} (h' : isAbsolute path' = false)
    (hsteps : steps path' = steps path) (root : String) :
    resolve root path' = resolve root path := by
  rw [resolve_of_relative h, resolve_of_relative h', hsteps]

end resolved

/-! ## shown paths -/

/-- A text with forward slashes for its backslashes. -/
def forward (text : List Char) : List Char := text.map fun c => if c = '\\' then '/' else c

theorem forward_eq_self {text : List Char} (h : '\\' ∉ text) : forward text = text := by
  have hkept : ∀ c ∈ text, (if c = '\\' then '/' else c) = id c := by
    intro c hc
    have hne : c ≠ '\\' := fun heq => h (heq ▸ hc)
    exact if_neg hne
  rw [forward, List.map_congr_left hkept, List.map_id]

/-- What is below a root is shown by its steps behind those of the root. -/
theorem display_of_steps {root path : String} {cs : List Component}
    (h : ∀ c ∈ cs, ProperComponent c) (hsteps : steps path = steps root ++ cs) :
    display root path = if cs = [] then "." else String.ofList (forward (joined cs)) := by
  have hbehind : Text.behind? (steps root) (steps root ++ cs) = some cs :=
    Text.behind?_eq_some_iff.2 rfl
  have htext : display root path =
      if String.ofList (forward (joined cs)) = "" then "."
      else String.ofList (forward (joined cs)) := by
    simp only [display, hsteps, hbehind, Option.getD_some, toList_ofComponents h,
      String.isEmpty_iff]
    rfl
  have hempty : String.ofList (forward (joined cs)) = "" ↔ cs = [] := by
    rw [← ofComponents_eq_empty_iff h, ← String.toList_inj, ← String.toList_inj,
      toList_ofComponents h]
    simp [forward]
  simp only [htext, hempty]

/-- What is resolved behind a root is shown by its own steps. -/
theorem display_resolve_eq {path : String} (h : isAbsolute path = false) (root : String) :
    display root (resolve root path) =
      if steps path = [] then "." else String.ofList (forward (joined (steps path))) :=
  display_of_steps (properComponent_of_mem_steps h) (steps_resolve h root)

/-- A path without backslashes is the same behind the root as it is shown. -/
theorem resolve_display {path : String} (h : isAbsolute path = false)
    (hpath : '\\' ∉ path.toList) (root : String) :
    resolve root (display root (resolve root path)) = resolve root path := by
  have hproper := properComponent_of_mem_steps h
  have hforward : forward (joined (steps path)) = joined (steps path) := by
    refine forward_eq_self fun hmem => ?_
    rcases mem_of_mem_joined hmem with hslash | ⟨c, hc, hmem⟩
    · exact absurd hslash (by decide)
    · exact hpath (mem_of_mem_text_steps hc hmem)
  have hshown : display root (resolve root path) =
      if steps path = [] then "." else ofComponents (steps path) := by
    rw [display_resolve_eq h, hforward, ← toList_ofComponents hproper, String.ofList_toList]
  rw [hshown]
  split
  · rename_i hnone
    exact resolve_congr h isAbsolute_dot (steps_dot.trans hnone.symm) root
  · exact resolve_congr h (isAbsolute_ofComponents hproper) (steps_ofComponents hproper) root

/-- **Resolving and showing are inverse.**  A relative path behind a root is shown as its components
other than single dots, which are the pieces between its slashes that mean something, with slashes
between them; if there are none it is shown as a dot.  What is shown is resolved to the same path
again, unless a backslash is shown as a slash.  And a normal form is its own. -/
theorem display_resolve {path : String} (h : isAbsolute path = false) (root : String) :
    let texts := ((components path).filter (· ≠ .current)).map fun c => c.text.toList
    texts = (path.toList.splitOn '/').filter (¬ IsNeedless ·) ∧
      display root (resolve root path) =
        (if texts = [] then "." else String.ofList (forward (List.intercalate ['/'] texts))) ∧
      ('\\' ∉ path.toList →
        resolve root (display root (resolve root path)) = resolve root path) ∧
      ∀ p, normalize (normalize p) = normalize p := by
  refine ⟨?_, ?_, fun hpath => resolve_display h hpath root, normalize_normalize⟩
  · rw [← Text.pieces_eq_splitOn]
    exact map_text_steps h
  · rw [display_resolve_eq h root]
    simp only [List.map_eq_nil_iff]
    rfl

/-- A path with needless parts, with a step up, and with a backslash in a name, behind a root that
starts with a dot. -/
theorem display_resolve_needless :
    isAbsolute ".//a\\b/./../c/" = false ∧
      resolve "./r" ".//a\\b/./../c/" = "r/a\\b/../c" ∧
      display "./r" (resolve "./r" ".//a\\b/./../c/") = "a/b/../c" := by
  have h : isAbsolute ".//a\\b/./../c/" = false := by decide
  obtain ⟨-, hshown, -, -⟩ := display_resolve h "./r"
  exact ⟨h, by decide, hshown.trans (by decide)⟩

end LocaleAudit.Path
