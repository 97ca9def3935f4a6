import LocaleAudit.Run

/-!
# LocaleAudit.Proofs.Run

Runs without their memory.  A step works with what has been kept, or else with what the files say,
and it keeps what it has worked with.  A check starts with nothing, so that its outcome is what the
files alone say.

* `Run.Gives` — what a step gives, and which parts of the memory it fills;
* `gives_issues`, `gives_failures` — the steps of a check;
* `check_eq` — the outcome of a check.
-/

namespace LocaleAudit

open LocaleAudit.Locale

/-! ## what the files say -/

namespace Project

variable (p : Project) (tree : Entry)

/-- What is wrong with the locale sources. -/
def problem? : Option Failure := (p.library tree).problem?

/-- The keys that catalogs should have: those used and those linked to. -/
def expectedKeys : KeySet := (p.usedKeys tree).keys.union (p.library tree).linkedKeys

/-- The issues of a rule in the catalogs. -/
def catalogIssues : Check → List Issue
  | .unused => Rule.unusedIssues (p.expectedKeys tree) (p.library tree).catalogs
  | .missing => Rule.missingIssues (p.usedKeys tree) (p.library tree).catalogs

/-- The issues of a rule; there are none if something is wrong with the sources. -/
def issuesOf (check : Check) : List Issue :=
  match p.problem? tree with
  | some _ => []
  | none => p.catalogIssues tree check

/-- The failures of catalogs and those of source files. -/
def failures : List Failure × List Failure :=
  match p.problem? tree with
  | some failure => ([failure], [])
  | none => ((p.library tree).failures, (p.usedKeys tree).failures)

/-- The issues of failures. -/
def failureIssues : List Issue :=
  ((p.failures tree).1 ++ (p.failures tree).2).map (Issue.ofFailure p.configShown)

/-- What a check has scanned; that is nothing if something is wrong with the sources. -/
def scanned? : Option UsedKeys :=
  match p.problem? tree with
  | some _ => none
  | none => some (p.usedKeys tree)

/-- The outcome of a check: the issues of the rules that are asked for, or of all rules, and then
those of failures. -/
def outcomeOf (checks : List Check) : Outcome :=
  .ofIssues
    ((if checks.isEmpty then Check.all else checks).flatMap (p.issuesOf tree) ++
      p.failureIssues tree)
    (((p.scanned? tree).map (·.fileCount)).getD 0) (p.library tree).catalogs.length true

end Project

/-! ## what steps work with -/

/-- What answers are given from. -/
structure Basis where
  /-- The catalogs. -/
  library : Library
  /-- The keys that source files use. -/
  used : UsedKeys

namespace Basis

variable (b : Basis)

/-- The keys that catalogs should have. -/
def expected : KeySet := b.used.keys.union b.library.linkedKeys

/-- The issues of a rule; there are none if something is wrong with the sources. -/
def issuesOf (check : Check) : List Issue :=
  match b.library.problem? with
  | some _ => []
  | none => match check with
    | .unused => Rule.unusedIssues b.expected b.library.catalogs
    | .missing => Rule.missingIssues b.used b.library.catalogs

/-- The failures of catalogs and those of source files. -/
def failures : List Failure × List Failure :=
  match b.library.problem? with
  | some failure => ([failure], [])
  | none => (b.library.failures, b.used.failures)

/-- The issues of failures. -/
def failureIssues (p : Project) : List Issue :=
  (b.failures.1 ++ b.failures.2).map (Issue.ofFailure p.configShown)

/-- What has been scanned when a check is over, if that was scanned before it. -/
def scannedBy (before? : Option UsedKeys) : Option UsedKeys :=
  match b.library.problem? with
  | some _ => before?
  | none => some b.used

/-- The outcome of checking some rules. -/
def outcome (p : Project) (before? : Option UsedKeys) (checks : List Check) : Outcome :=
  .ofIssues
    ((if checks.isEmpty then Check.all else checks).flatMap b.issuesOf ++ b.failureIssues p)
    (((b.scannedBy before?).map (·.fileCount)).getD 0) b.library.catalogs.length true

end Basis

/-! ## what is kept -/

theorem Cell.force_eq {α : Type} (make : Unit → α) (c : Cell α) :
    c.force make = (c.value.getD (make ()), ⟨some (c.value.getD (make ()))⟩) := by
  obtain ⟨_ | a⟩ := c <;> rfl

/-- A part of the memory. -/
inductive Memory.Part
  /-- The catalogs. -/
  | library
  /-- The keys that source files use. -/
  | used
  /-- The catalogs, and the keys that they link to. -/
  | linked
deriving DecidableEq

namespace Memory

/-- The memory with one part filled. -/
def keep (b : Basis) (m : Memory) : Part → Memory
  | .library => { m with library := ⟨some b.library⟩ }
  | .used => { m with used := ⟨some b.used⟩ }
  | .linked => { m with library := ⟨some b.library⟩, linked := ⟨some b.library.linkedKeys⟩ }

/-- The memory with some parts filled. -/
def fill (b : Basis) (m : Memory) (parts : List Part) : Memory := parts.foldl (keep b) m

/-- What a step answers from: what is kept, or else what the files say. -/
def basis (p : Project) (tree : Entry) (m : Memory) : Basis :=
  ⟨m.library.value.getD (p.library tree), m.used.value.getD (p.usedKeys tree)⟩

/-- The linked keys that are kept are those of the catalogs that are kept. -/
def Linked (m : Memory) : Prop :=
  ∀ keys, m.linked.value = some keys → ∃ l, m.library.value = some l ∧ keys = l.linkedKeys

variable {p : Project} {tree : Entry} {b : Basis} {m : Memory}

theorem fill_append (parts parts' : List Part) :
    m.fill b (parts ++ parts') = (m.fill b parts).fill b parts' :=
  List.foldl_append

theorem linked_empty : Linked {} := fun _ h => nomatch h

theorem Linked.keep (h : m.Linked) (hb : b = m.basis p tree) (part : Part) :
    (m.keep b part).Linked := by
  intro keys hkeys
  cases part with
  | library =>
      obtain ⟨l, hl, heq⟩ := h keys hkeys
      have : b.library = l := by rw [hb, basis, hl, Option.getD_some]
      exact ⟨b.library, rfl, by rw [this, heq]⟩
  | used => exact h keys hkeys
  | linked => exact ⟨b.library, rfl, (Option.some.inj hkeys).symm⟩

theorem basis_keep (hb : b = m.basis p tree) (part : Part) : (m.keep b part).basis p tree = b := by
  cases part with
  | library => rw [hb]; rfl
  | used => rw [hb]; rfl
  | linked => rw [hb]; rfl

/-- Filling parts from what answers are given from does not change that. -/
theorem basis_fill (h : m.Linked) (hb : m.basis p tree = b) (parts : List Part) :
    (m.fill b parts).Linked ∧ (m.fill b parts).basis p tree = b := by
  induction parts generalizing m with
  | nil => exact ⟨h, hb⟩
  | cons part parts ih => exact ih (h.keep hb.symm part) (basis_keep hb.symm part)

theorem library_fill (parts : List Part) :
    (m.fill b parts).library.value =
      if .library ∈ parts ∨ .linked ∈ parts then some b.library else m.library.value := by
  induction parts generalizing m with
  | nil => rfl
  | cons part parts ih =>
      rw [fill, List.foldl_cons, ← fill, ih]
      cases part <;> simp [keep]

theorem used_fill (parts : List Part) :
    (m.fill b parts).used.value = if .used ∈ parts then some b.used else m.used.value := by
  induction parts generalizing m with
  | nil => rfl
  | cons part parts ih =>
      rw [fill, List.foldl_cons, ← fill, ih]
      cases part <;> simp [keep]

end Memory

/-! ## steps -/

namespace Run

variable {p : Project} {tree : Entry} {α β : Type}

theorem bind_eq {step : Run α} {next : α → Run β} {a : α} {m m' : Memory}
    (h : step m = (a, m')) : (step >>= next) m = next a m' :=
  calc (step >>= next) m = next (step m).1 (step m).2 := rfl
    _ = next a m' := by rw [h]

/-- From any memory, a step gives what the basis says and fills the parts that it needs. -/
def Gives (p : Project) (tree : Entry) (b : Basis) (step : Run α) (a : α)
    (parts : List Memory.Part) : Prop :=
  ∀ m : Memory, m.Linked → m.basis p tree = b → step m = (a, m.fill b parts)

namespace Gives

variable {b : Basis}

theorem pure (a : α) : Gives p tree b (Pure.pure a) a [] := fun _ _ _ => rfl

/-- Steps one after the other. -/
theorem bind {step : Run α} {next : α → Run β} {a : α} {c : β} {parts parts' : List Memory.Part}
    (hstep : Gives p tree b step a parts) (hnext : Gives p tree b (next a) c parts') :
    Gives p tree b (step >>= next) c (parts ++ parts') := by
  intro m hm hb
  obtain ⟨hlinked, hbasis⟩ := Memory.basis_fill hm hb parts
  rw [bind_eq (hstep m hm hb), hnext _ hlinked hbasis, Memory.fill_append]

/-- A step, and then something that is worked out from what it gives. -/
theorem map {step : Run α} {a : α} {parts : List Memory.Part} (hstep : Gives p tree b step a parts)
    (f : α → β) : Gives p tree b (step >>= fun a => Pure.pure (f a)) (f a) parts := by
  have h : Gives p tree b (step >>= fun a => Pure.pure (f a)) (f a) (parts ++ []) :=
    hstep.bind (.pure (f a))
  rwa [List.append_nil] at h

end Gives

variable (p : Project) (tree : Entry) (b : Basis)

theorem gives_library : Gives p tree b (library p tree) b.library [.library] := by
  intro m _ hb
  rw [library, Cell.force_eq, ← hb]
  rfl

theorem gives_used : Gives p tree b (used p tree) b.used [.used] := by
  intro m _ hb
  rw [used, Cell.force_eq, ← hb]
  rfl

theorem gives_linked : Gives p tree b (linked p tree) b.library.linkedKeys [.linked] := by
  intro m hm hb
  cases hkept : m.linked.value with
  | none =>
      simp only [linked, hkept, gives_library p tree b m hm hb]
      rfl
  | some keys =>
      -- the catalogs that the keys come from are kept as well
      obtain ⟨l, hl, rfl⟩ := hm keys hkept
      have hlibrary : b.library = l := by rw [← hb, Memory.basis, hl, Option.getD_some]
      obtain ⟨⟨_⟩, ⟨_⟩, ⟨_⟩⟩ := m
      simp only at hl hkept
      simp only [linked, hl, hkept, hlibrary, Memory.fill, List.foldl_cons, List.foldl_nil,
        Memory.keep]

theorem gives_problem? : Gives p tree b (problem? p tree) b.library.problem? [.library] :=
  (gives_library p tree b).map _

theorem gives_expected : Gives p tree b (expected p tree) b.expected [.used, .linked] :=
  (gives_used p tree b).bind ((gives_linked p tree b).map _)

end Run

/-! ## rules -/

namespace Basis

variable (b : Basis)

/-- Parts that are needed unless something is wrong with the sources, which is looked at first. -/
def guarded (parts : List Memory.Part) : List Memory.Part :=
  .library :: match b.library.problem? with
    | some _ => []
    | none => parts

/-- What a rule needs. -/
def neededBy : Check → List Memory.Part
  | .unused => b.guarded [.used, .linked, .library]
  | .missing => b.guarded [.used, .library]

/-- What a check of some rules needs. -/
def neededFor (checks : List Check) : List Memory.Part :=
  (if checks.isEmpty then Check.all else checks).flatMap b.neededBy ++
    (b.guarded [.library, .used] ++ [.library])

variable {b}

theorem used_mem_guarded_iff {parts : List Memory.Part} :
    .used ∈ b.guarded parts ↔ b.library.problem? = none ∧ .used ∈ parts := by
  rw [guarded, List.mem_cons]
  cases b.library.problem? <;> simp

theorem used_mem_neededBy_iff {check : Check} :
    .used ∈ b.neededBy check ↔ b.library.problem? = none := by
  cases check with
  | unused => simp [neededBy, used_mem_guarded_iff]
  | missing => simp [neededBy, used_mem_guarded_iff]

theorem scannedBy_eq (b : Basis) (m : Memory) (asked : List Check) :
    b.scannedBy m.used.value =
      (m.fill b (asked.flatMap b.neededBy ++ b.guarded [.library, .used])).used.value := by
  rw [Memory.used_fill, scannedBy]
  cases h : b.library.problem? <;> simp [used_mem_guarded_iff, used_mem_neededBy_iff, h]

end Basis

namespace Run

variable (p : Project) (tree : Entry) (b : Basis)

theorem gives_issues (check : Check) :
    Gives p tree b (check.issues p tree) (b.issuesOf check) (b.neededBy check) := by
  cases check with
  | unused =>
      refine (gives_problem? p tree b).bind ?_
      cases h : b.library.problem? with
      | some failure =>
          simp only [Basis.issuesOf, h]
          exact .pure []
      | none =>
          simp only [Basis.issuesOf, h]
          exact (gives_expected p tree b).bind ((gives_library p tree b).map _)
  | missing =>
      refine (gives_problem? p tree b).bind ?_
      cases h : b.library.problem? with
      | some failure =>
          simp only [Basis.issuesOf, h]
          exact .pure []
      | none =>
          simp only [Basis.issuesOf, h]
          exact (gives_used p tree b).bind ((gives_library p tree b).map _)

theorem gives_issuesOf (checks : List Check) :
    Gives p tree b (Check.issuesOf p tree checks) (checks.flatMap b.issuesOf)
      (checks.flatMap b.neededBy) := by
  induction checks with
  | nil => exact .pure []
  | cons check checks ih => exact (gives_issues p tree b check).bind (ih.map _)

theorem gives_failures :
    Gives p tree b (failures p tree) b.failures (b.guarded [.library, .used]) := by
  refine (gives_problem? p tree b).bind ?_
  cases h : b.library.problem? with
  | some failure =>
      rw [Basis.failures, h]
      exact .pure _
  | none =>
      rw [Basis.failures, h]
      exact (gives_library p tree b).bind ((gives_used p tree b).map _)

theorem gives_failureIssues :
    Gives p tree b (failureIssues p tree) (b.failureIssues p) (b.guarded [.library, .used]) :=
  (gives_failures p tree b).map _

/-! ## outcomes -/

theorem outcome_eq (checks : List Check) {m : Memory} (hm : m.Linked) (hb : m.basis p tree = b) :
    outcome p tree checks m =
      (b.outcome p m.used.value checks, m.fill b (b.neededFor checks)) := by
  rw [Basis.outcome, Basis.neededFor]
  generalize hasked : (if checks.isEmpty then Check.all else checks) = asked
  obtain ⟨hm₁, hb₁⟩ := Memory.basis_fill hm hb (asked.flatMap b.neededBy)
  obtain ⟨hm₂, hb₂⟩ := Memory.basis_fill hm₁ hb₁ (b.guarded [.library, .used])
  rw [← Memory.fill_append] at hm₂ hb₂
  have hscanned : usedSoFar (m.fill b (asked.flatMap b.neededBy ++ b.guarded [.library, .used])) =
      (b.scannedBy m.used.value, _) :=
    congrArg (·, _) (b.scannedBy_eq m asked).symm
  rw [outcome, hasked, bind_eq (gives_issuesOf p tree b asked m hm hb),
    bind_eq (gives_failureIssues p tree b _ hm₁ hb₁), ← Memory.fill_append, bind_eq hscanned,
    bind_eq (gives_library p tree b _ hm₂ hb₂), ← Memory.fill_append, List.append_assoc]
  rfl

end Run

namespace Project

/-- The issues of a rule are what the files alone say. -/
theorem issues_run (p : Project) (tree : Entry) (check : Check) :
    (check.issues p tree {}).1 = p.issuesOf tree check :=
  congrArg Prod.fst (Run.gives_issues p tree _ check {} Memory.linked_empty rfl)

/-- The issues of failures are what the files alone say. -/
theorem failureIssues_run (p : Project) (tree : Entry) :
    (Run.failureIssues p tree {}).1 = p.failureIssues tree :=
  congrArg Prod.fst (Run.gives_failureIssues p tree _ {} Memory.linked_empty rfl)

/-- **The outcome of a check** is what the files alone say. -/
theorem check_eq (p : Project) (tree : Entry) (checks : List Check) :
    p.check tree checks = p.outcomeOf tree checks := by
  rw [check, Run.outcome_eq p tree _ checks Memory.linked_empty rfl]
  rfl

/-- The issues of a check are those of the rules that are checked, and those of failures. -/
theorem mem_issues_check_iff {p : Project} {tree : Entry} {checks : List Check} {issue : Issue} :
    issue ∈ (p.check tree checks).issues ↔
      (∃ check ∈ if checks.isEmpty then Check.all else checks, issue ∈ p.issuesOf tree check) ∨
        issue ∈ p.failureIssues tree := by
  rw [check_eq, outcomeOf, Outcome.ofIssues, Issue.sort, List.mem_mergeSort, List.mem_append,
    List.mem_flatMap]

end Project

end LocaleAudit
