import LocaleAudit.Proofs.Run

/-!
# LocaleAudit.Proofs.Session

Sessions: a run is asked for one thing after the other, and the files change in between.  What has
been loaded is kept, and all answers are given from it.

* `Query.ask_eq` — what a query answers, and what it keeps;
* `Session.keeps_after` — what is kept is what all later answers are given from.
-/

namespace LocaleAudit

open LocaleAudit.Locale

/-! ## queries -/

/-- What a run can be asked for. -/
inductive Query
  /-- The catalogs, their locales and their failures. -/
  | library
  /-- The catalog at a path. -/
  | catalog (path : String)
  /-- What is wrong with the locale sources. -/
  | problem
  /-- The keys that source files use. -/
  | used
  /-- What has been scanned so far. -/
  | scanned
  /-- The keys that catalogs link to. -/
  | linked
  /-- The keys that catalogs should have. -/
  | expected
  /-- The issues of a rule. -/
  | issues (check : Check)
  /-- The issues of failures. -/
  | failureIssues
  /-- The outcome of checking some rules. -/
  | outcome (checks : List Check)
deriving DecidableEq

/-- What a run answers. -/
inductive Answer
  | library (library : Library)
  | catalog (found : Except Failure (Option Catalog))
  | problem (failure? : Option Failure)
  | used (used : UsedKeys)
  | scanned (used? : Option UsedKeys)
  | keys (keys : KeySet)
  | issues (issues : List Issue)
  | outcome (outcome : Outcome)

/-- The step of a run that answers a query. -/
def Query.ask (p : Project) (tree : Entry) : Query → Run Answer
  | library => return .library (← Run.library p tree)
  | catalog path => return .catalog ((← Run.library p tree).find? path)
  | problem => return .problem (← Run.problem? p tree)
  | used => return .used (← Run.used p tree)
  | scanned => return .scanned (← Run.usedSoFar)
  | linked => return .keys (← Run.linked p tree)
  | expected => return .keys (← Run.expected p tree)
  | issues check => return .issues (← check.issues p tree)
  | failureIssues => return .issues (← Run.failureIssues p tree)
  | outcome checks => return .outcome (← Run.outcome p tree checks)

/-! ## answers -/

namespace Basis

variable (b : Basis)

/-- The answer to a query, if that was scanned before it. -/
def answer (p : Project) (before? : Option UsedKeys) : Query → Answer
  | .library => .library b.library
  | .catalog path => .catalog (b.library.find? path)
  | .problem => .problem b.library.problem?
  | .used => .used b.used
  | .scanned => .scanned before?
  | .linked => .keys b.library.linkedKeys
  | .expected => .keys b.expected
  | .issues check => .issues (b.issuesOf check)
  | .failureIssues => .issues (b.failureIssues p)
  | .outcome checks => .outcome (b.outcome p before? checks)

/-- What a query needs. -/
def needs : Query → List Memory.Part
  | .library | .catalog _ | .problem => [.library]
  | .used => [.used]
  | .scanned => []
  | .linked => [.linked]
  | .expected => [.used, .linked]
  | .issues check => b.neededBy check
  | .failureIssues => b.guarded [.library, .used]
  | .outcome checks => b.neededFor checks

variable {b}

/-- Source files are scanned if the keys that they use are asked for, or else if nothing is wrong
with the locale sources. -/
theorem used_mem_needs {failure : Failure} (h : b.library.problem? = some failure) {q : Query}
    (hq : .used ∈ b.needs q) : q = .used ∨ q = .expected := by
  cases q with
  | used => exact .inl rfl
  | expected => exact .inr rfl
  | _ => simp [needs, neededFor, used_mem_guarded_iff, used_mem_neededBy_iff, h] at hq

end Basis

/-- **A query** is answered from what is kept, or else from the files; what it has needed is kept
from then on. -/
theorem Query.ask_eq (p : Project) (tree : Entry) (q : Query) {m : Memory} {b : Basis}
    (hm : m.Linked) (hb : m.basis p tree = b) :
    q.ask p tree m = (b.answer p m.used.value q, m.fill b (b.needs q)) := by
  cases q with
  | library => exact (Run.gives_library p tree b).map Answer.library m hm hb
  | catalog path =>
      exact (Run.gives_library p tree b).map (fun l => Answer.catalog (l.find? path)) m hm hb
  | problem => exact (Run.gives_problem? p tree b).map Answer.problem m hm hb
  | used => exact (Run.gives_used p tree b).map Answer.used m hm hb
  | scanned => rfl
  | linked => exact (Run.gives_linked p tree b).map Answer.keys m hm hb
  | expected => exact (Run.gives_expected p tree b).map Answer.keys m hm hb
  | issues check => exact (Run.gives_issues p tree b check).map Answer.issues m hm hb
  | failureIssues => exact (Run.gives_failureIssues p tree b).map Answer.issues m hm hb
  | outcome checks => exact Run.bind_eq (Run.outcome_eq p tree b checks hm hb)

/-! ## sessions -/

/-- What happens in a session. -/
inductive Event
  /-- An entry is written at the place that the names lead to. -/
  | write (names : List String) (entry : Entry)
  /-- The entry that the names lead to is removed. -/
  | remove (names : List String)
  /-- The run is asked for something. -/
  | ask (query : Query)

/-- Where a session is. -/
structure Session where
  /-- The files as they are. -/
  tree : Entry
  /-- What the run has kept. -/
  memory : Memory := {}

namespace Session

variable (p : Project)

/-- One event. -/
def step (s : Session) : Event → Session
  | .write names entry => { s with tree := Entry.write entry names s.tree }
  | .remove names => { s with tree := Entry.remove names s.tree }
  | .ask q => { s with memory := (q.ask p s.tree s.memory).2 }

/-- The session after some events. -/
def after (s : Session) (events : List Event) : Session := events.foldl (step p) s

/-- The answer to a query. -/
def answer (s : Session) (q : Query) : Answer := (q.ask p s.tree s.memory).1

/-- What answers are given from. -/
def basis (s : Session) : Basis := s.memory.basis p s.tree

/-- What is kept from one moment of a session to a later one. -/
structure Keeps (s s' : Session) : Prop where
  /-- Catalogs that have been loaded are those that all later answers are given from. -/
  library : ∀ l, s.memory.library.value = some l → s'.memory.library.value = some l ∧
    ∀ q, s'.answer p q = Basis.answer ⟨l, (s'.basis p).used⟩ p s'.memory.used.value q
  /-- Keys that have been scanned are those that all later answers are given from. -/
  used : ∀ u, s.memory.used.value = some u → s'.memory.used.value = some u ∧
    ∀ q, s'.answer p q = Basis.answer ⟨(s'.basis p).library, u⟩ p (some u) q
  /-- The linked keys that have been collected are those of the catalogs that have been loaded. -/
  linked : ∀ keys, s'.memory.linked.value = some keys →
    ∃ l, s'.memory.library.value = some l ∧ keys = l.linkedKeys
  /-- If something is wrong with the locale sources, by the catalogs that have been loaded or by
  those that a query is about to load, no rule has source files scanned. -/
  scanned : ∀ l failure, s.memory.library.value = some l ∨ (s'.basis p).library = l →
    l.problem? = some failure →
    ∀ q, q ≠ .used → q ≠ .expected → (s'.step p (.ask q)).memory.used = s'.memory.used

variable {p} {s : Session}

theorem memory_ask (h : s.memory.Linked) (q : Query) :
    (s.step p (.ask q)).memory = s.memory.fill (s.basis p) ((s.basis p).needs q) := by
  rw [step, q.ask_eq p s.tree h rfl]
  rfl

theorem answer_eq (h : s.memory.Linked) (q : Query) :
    s.answer p q = (s.basis p).answer p s.memory.used.value q := by
  rw [answer, q.ask_eq p s.tree h rfl]
  rfl

/-- One event leaves the linked keys to be those of the catalogs that have been loaded. -/
theorem linked_step (h : s.memory.Linked) (event : Event) : (s.step p event).memory.Linked := by
  cases event with
  | write names entry => exact h
  | remove names => exact h
  | ask q =>
      rw [memory_ask h]
      exact (Memory.basis_fill h rfl _).1

/-- One event leaves catalogs that have been loaded. -/
theorem library_step (h : s.memory.Linked) {l : Library} (hl : s.memory.library.value = some l)
    (event : Event) : (s.step p event).memory.library.value = some l := by
  cases event with
  | write names entry => exact hl
  | remove names => exact hl
  | ask q =>
      have hbasis : (s.basis p).library = l := by rw [basis, Memory.basis, hl, Option.getD_some]
      rw [memory_ask h, Memory.library_fill, hbasis, hl, ite_self]

/-- One event leaves keys that have been scanned. -/
theorem used_step (h : s.memory.Linked) {u : UsedKeys} (hu : s.memory.used.value = some u)
    (event : Event) : (s.step p event).memory.used.value = some u := by
  cases event with
  | write names entry => exact hu
  | remove names => exact hu
  | ask q =>
      have hbasis : (s.basis p).used = u := by rw [basis, Memory.basis, hu, Option.getD_some]
      rw [memory_ask h, Memory.used_fill, hbasis, hu, ite_self]

theorem linked_after (h : s.memory.Linked) (events : List Event) :
    (s.after p events).memory.Linked := by
  induction events generalizing s with
  | nil => exact h
  | cons event events ih => exact ih (linked_step h event)

theorem library_after (h : s.memory.Linked) {l : Library} (hl : s.memory.library.value = some l)
    (events : List Event) : (s.after p events).memory.library.value = some l := by
  induction events generalizing s with
  | nil => exact hl
  | cons event events ih => exact ih (linked_step h event) (library_step h hl event)

theorem used_after (h : s.memory.Linked) {u : UsedKeys} (hu : s.memory.used.value = some u)
    (events : List Event) : (s.after p events).memory.used.value = some u := by
  induction events generalizing s with
  | nil => exact hu
  | cons event events ih => exact ih (linked_step h event) (used_step h hu event)

/-- Rules do not have source files scanned if something is wrong with the locale sources. -/
theorem used_ask (h : s.memory.Linked) {failure : Failure}
    (hwrong : (s.basis p).library.problem? = some failure) {q : Query} (hused : q ≠ .used)
    (hexpected : q ≠ .expected) : (s.step p (.ask q)).memory.used = s.memory.used := by
  have hneeds : .used ∉ (s.basis p).needs q := fun hq =>
    (Basis.used_mem_needs hwrong hq).elim hused hexpected
  have hvalue : (s.step p (.ask q)).memory.used.value = s.memory.used.value := by
    rw [memory_ask h, Memory.used_fill, if_neg hneeds]
  exact congrArg Cell.mk hvalue

/-- **A session is consistent**: whatever has been asked for and however the files change, what has
been loaded once is what all later answers are given from. -/
theorem keeps_after (p : Project) (tree : Entry) (earlier later : List Event) :
    Keeps p (after p ⟨tree, {}⟩ earlier) (after p (after p ⟨tree, {}⟩ earlier) later) := by
  have h : (after p ⟨tree, {}⟩ earlier).memory.Linked := linked_after Memory.linked_empty earlier
  have h' : (after p (after p ⟨tree, {}⟩ earlier) later).memory.Linked := linked_after h later
  exact {
    library := fun l hl => by
      have hl' := library_after (p := p) h hl later
      refine ⟨hl', fun q => ?_⟩
      rw [answer_eq h', basis, Memory.basis, hl', Option.getD_some]
    used := fun u hu => by
      have hu' := used_after (p := p) h hu later
      refine ⟨hu', fun q => ?_⟩
      rw [answer_eq h', hu', basis, Memory.basis, hu', Option.getD_some]
    linked := h'
    scanned := fun l failure hl hwrong q hused hexpected => by
      have hbasis : (basis p (after p (after p ⟨tree, {}⟩ earlier) later)).library = l := by
        refine hl.elim (fun hl => ?_) id
        rw [basis, Memory.basis, library_after (p := p) h hl later, Option.getD_some]
      exact used_ask h' (hbasis ▸ hwrong) hused hexpected }

end Session

end LocaleAudit
