import LocaleAudit.Cli
import LocaleAudit.Proofs.Key.Diff
import LocaleAudit.Proofs.Report
import LocaleAudit.Proofs.Rule.Separate
import LocaleAudit.Proofs.Rule.Spared

/-!
# LocaleAudit.Proofs.Rule.Selection

The rules that are asked for.  Each rule gives issues of its own kind, so that issues which the
order does not tell apart come from one rule, or from failures.  What is told is hence settled by
how often each rule is named, and not by where.

* `check_eq_of_count` — rules that are named as often lead to the same outcome;
* `countP_issues_check`, `errors_check`, `warnings_check` — how often issues are told;
* `Cli.reply_perm` — the order of the rules on the command line does not matter;
* `check_eraseDups` — what naming a rule again changes.
-/

namespace LocaleAudit

/-! ## kinds of issues -/

/-- What the issues of a rule are about. -/
def Check.rule : Check → Rule
  | unused => .unusedKey
  | missing => .missingKey

namespace Project

variable {p : Project} {tree : Entry}

theorem rule_of_mem_unusedIssues {expected : KeySet} {catalogs : List Locale.Catalog}
    {issue : Issue} (h : issue ∈ Rule.unusedIssues expected catalogs) :
    issue.rule = .unusedKey := by
  obtain ⟨c, -, h⟩ := List.mem_flatMap.1 h
  obtain ⟨f, -, hfound⟩ := List.mem_filterMap.1 h
  obtain ⟨m, -, rfl⟩ := Option.map_eq_some_iff.1 hfound
  rfl

/-- A rule gives issues of its own kind. -/
theorem rule_of_mem_issuesOf {check : Check} {issue : Issue} (h : issue ∈ p.issuesOf tree check) :
    issue.rule = check.rule := by
  unfold issuesOf at h
  split at h
  · contradiction
  · cases check with
    | unused => exact rule_of_mem_unusedIssues h
    | missing => exact rule_of_mem_missingIssues h

theorem filter_alike_issuesOf {a : Issue} {check : Check} (h : check.rule ≠ a.rule) :
    (p.issuesOf tree check).filter a.alike = [] := by
  refine List.filter_eq_nil_iff.2 fun b hb halike => h ?_
  obtain ⟨-, -, -, hrule, -⟩ := Issue.compare_eq_eq_iff.1 (eq_of_beq halike)
  rw [hrule, rule_of_mem_issuesOf hb]

/-! ## how often a rule is named -/

theorem flatMap_eq_flatten_replicate {α : Type} {f : Check → List α} {check : Check}
    (h : ∀ other, other ≠ check → f other = []) (checks : List Check) :
    checks.flatMap f = (List.replicate (checks.count check) (f check)).flatten := by
  induction checks with
  | nil => rfl
  | cons c cs ih =>
      rw [List.flatMap_cons, ih]
      by_cases hc : c = check
      · rw [hc, List.count_cons_self, List.replicate_succ, List.flatten_cons]
      · rw [h c hc, List.count_cons_of_ne hc, List.nil_append]

/-- A class of alike issues comes from one rule, as often as that is named. -/
theorem exists_filter_alike_eq (p : Project) (tree : Entry) (a : Issue) :
    ∃ check, ∀ checks : List Check, (checks.flatMap (p.issuesOf tree)).filter a.alike =
      (List.replicate (checks.count check)
        ((p.issuesOf tree check).filter a.alike)).flatten := by
  have hsource : ∃ check : Check, ∀ other, other ≠ check → other.rule ≠ a.rule := by
    by_cases hrule : a.rule = .unusedKey
    · refine ⟨.unused, fun other hother => ?_⟩
      cases other with
      | unused => contradiction
      | missing => exact fun h => nomatch h.trans hrule
    · refine ⟨.missing, fun other hother => ?_⟩
      cases other with
      | unused => exact fun h => hrule h.symm
      | missing => contradiction
  obtain ⟨check, hothers⟩ := hsource
  refine ⟨check, fun checks => ?_⟩
  rw [List.filter_flatMap]
  exact flatMap_eq_flatten_replicate (fun other hne => filter_alike_issuesOf (hothers other hne))
    checks

/-- **Rules that are named as often** lead to the same outcome; it does not matter how often a rule
without issues is named. -/
theorem check_eq_of_count {checks checks' : List Check} (hempty : checks = [] ↔ checks' = [])
    (h : ∀ check, checks.count check = checks'.count check ∨ p.issuesOf tree check = []) :
    p.check tree checks = p.check tree checks' := by
  have hclasses : Issue.SameClasses id
      (checks.flatMap (p.issuesOf tree) ++ p.failureIssues tree)
      (checks'.flatMap (p.issuesOf tree) ++ p.failureIssues tree) := fun a => by
    obtain ⟨check, hclass⟩ := exists_filter_alike_eq p tree a
    rw [List.filter_append, List.filter_append, hclass, hclass]
    rcases h check with hcount | hnone
    · rw [hcount]
    · rw [hnone, List.filter_nil, List.flatten_replicate_nil, List.flatten_replicate_nil]
  have hsorted := hclasses.map_sort_eq
  rw [List.map_id, List.map_id] at hsorted
  rw [check_eq, check_eq, outcomeOf, outcomeOf]
  by_cases hnone : checks = []
  · rw [hnone, hempty.1 hnone]
  · have hnone' : checks' ≠ [] := fun h => hnone (hempty.2 h)
    rw [if_neg (by simpa using hnone), if_neg (by simpa using hnone'), Outcome.ofIssues, hsorted]
    rfl

end Project

/-! ## the order of rules -/

/-- **The order of the rules** on a command line does not matter: what is written, and how the
command ends, is the same. -/
theorem Cli.reply_perm (tree : Entry) (color : Bool) {arguments arguments' : List String}
    {checks checks' : List Check} {options : Options} {format : Report.Format}
    (h : request arguments = .check checks options format)
    (h' : request arguments' = .check checks' options format) (hperm : checks.Perm checks') :
    reply tree color arguments = reply tree color arguments' := by
  have hcheck (p : Project) : p.check tree checks = p.check tree checks' :=
    Project.check_eq_of_count ⟨fun hnil => (hnil ▸ hperm).nil_eq.symm,
      fun hnil => (hnil ▸ hperm).eq_nil⟩ fun check => .inl (hperm.count_eq check)
  simp only [reply, h, h', hcheck]

/-- Rules among the options, in another order and one of them twice. -/
theorem Cli.reply_perm_twice :
    let arguments := ["check", "missing", "unused", "--locale-dir", "en.json", "missing"]
    let arguments' := ["check", "--locale-dir=en.json", "missing", "missing", "unused"]
    let tree := Project.treeWith [("a.js", "t('k')")]
    request arguments = .check [.missing, .unused, .missing] { localeDir := some "en.json" } .text ∧
      request arguments' =
        .check [.missing, .missing, .unused] { localeDir := some "en.json" } .text ∧
      reply tree true arguments = reply tree true arguments' := by
  intro arguments arguments' tree
  have h : request arguments =
      .check [.missing, .unused, .missing] { localeDir := some "en.json" } .text := by decide +kernel
  have h' : request arguments' =
      .check [.missing, .missing, .unused] { localeDir := some "en.json" } .text := by decide +kernel
  have hperm : List.Perm [Check.missing, .unused, .missing] [.missing, .missing, .unused] :=
    (List.Perm.swap Check.missing Check.unused []).cons Check.missing
  exact ⟨h, h', reply_perm tree true h h' hperm⟩

/-! ## rules that are named again -/

namespace Project

variable {p : Project} {tree : Entry} {checks : List Check}

/-- What two rules give together, each of them as often as it is named. -/
theorem countP_flatMap_checks {α : Type} (f : Check → List α) (q : α → Bool)
    (checks : List Check) :
    (checks.flatMap f).countP q =
      checks.count .unused * (f .unused).countP q +
        checks.count .missing * (f .missing).countP q := by
  induction checks with
  | nil => simp
  | cons c cs ih =>
      rw [List.flatMap_cons, List.countP_append, ih]
      cases c with
      | unused =>
          rw [List.count_cons_self, List.count_cons_of_ne (by decide), Nat.succ_mul]
          omega
      | missing =>
          rw [List.count_cons_self, List.count_cons_of_ne (by decide), Nat.succ_mul]
          omega

/-- What is told is what each rule gives, as often as the rule is named, and the failures. -/
theorem countP_issues_check (hne : checks ≠ []) (q : Issue → Bool) :
    (p.check tree checks).issues.countP q =
      checks.count .unused * (p.issuesOf tree .unused).countP q +
        checks.count .missing * (p.issuesOf tree .missing).countP q +
        (p.failureIssues tree).countP q := by
  rw [check_eq, outcomeOf, if_neg (by simpa using hne), Outcome.ofIssues,
    (Issue.sort_perm _).countP_eq, List.countP_append, countP_flatMap_checks]

/-- A list without its repetitions names nothing twice. -/
theorem nodup_eraseDups : ∀ checks : List Check, checks.eraseDups.Nodup
  | [] => .nil
  | check :: checks => by
      rw [List.eraseDups_cons, List.nodup_cons]
      exact ⟨by simp, nodup_eraseDups _⟩
termination_by checks => checks.length
decreasing_by exact Nat.lt_succ_of_le (List.length_filter_le _ _)

theorem count_eraseDups (checks : List Check) (check : Check) :
    checks.eraseDups.count check = if check ∈ checks then 1 else 0 := by
  rw [(nodup_eraseDups checks).count]
  simp only [List.mem_eraseDups]

theorem severity_of_mem_issuesOf {check : Check} {issue : Issue}
    (h : issue ∈ p.issuesOf tree check) :
    issue.severity = if check = .unused then .warning else .error := by
  rw [Report.severity_eq, rule_of_mem_issuesOf h]
  cases check <;> rfl

theorem severity_of_mem_failureIssues {issue : Issue} (h : issue ∈ p.failureIssues tree) :
    issue.severity = .error := by
  rw [Report.severity_eq, if_neg (rule_of_mem_failureIssues h)]

/-- The errors of a check are missing keys and failures. -/
theorem errors_check (hne : checks ≠ []) :
    (p.check tree checks).errors =
      checks.count .missing * (p.issuesOf tree .missing).length +
        (p.failureIssues tree).length := by
  have hunused : Report.errorCount (p.issuesOf tree .unused) = 0 :=
    List.countP_eq_zero.2 fun issue h => by simp [severity_of_mem_issuesOf h]
  have hmissing : Report.errorCount (p.issuesOf tree .missing) =
      (p.issuesOf tree .missing).length :=
    List.countP_eq_length.2 fun issue h => by simp [severity_of_mem_issuesOf h]
  have hfailures : Report.errorCount (p.failureIssues tree) = (p.failureIssues tree).length :=
    List.countP_eq_length.2 fun issue h => by simp [severity_of_mem_failureIssues h]
  rw [Report.errorCount] at hunused hmissing hfailures
  rw [Outcome.errors, Report.errorCount, countP_issues_check hne, hunused, hmissing, hfailures,
    Nat.mul_zero, Nat.zero_add]

/-- The warnings of a check are unused keys. -/
theorem warnings_check (hne : checks ≠ []) :
    (p.check tree checks).warnings =
      checks.count .unused * (p.issuesOf tree .unused).length := by
  have hlength : (p.check tree checks).issues.countP (fun _ => true) = _ :=
    countP_issues_check hne _
  have herrors : (p.check tree checks).errors = _ := errors_check hne
  simp only [List.countP_true] at hlength
  rw [Outcome.errors] at herrors
  rw [Outcome.warnings, Report.warningCount, hlength, herrors, Nat.add_assoc, Nat.add_sub_cancel]

theorem eraseDups_ne_nil (hne : checks ≠ []) : checks.eraseDups ≠ [] := by
  obtain ⟨c, hc⟩ := List.exists_mem_of_ne_nil checks hne
  exact List.ne_nil_of_mem (List.mem_eraseDups.2 hc)

theorem mem_issues_eraseDups_iff (hne : checks ≠ []) {issue : Issue} :
    issue ∈ (p.check tree checks).issues ↔ issue ∈ (p.check tree checks.eraseDups).issues := by
  simp only [mem_issues_check_iff, List.isEmpty_iff, hne, eraseDups_ne_nil hne, if_false,
    List.mem_eraseDups]

theorem exitOnErrors_check (checks : List Check) : (p.check tree checks).exitOnErrors = true := by
  rw [check_eq]
  rfl

theorem status_eraseDups (hne : checks ≠ []) :
    (p.check tree checks).status = (p.check tree checks.eraseDups).status := by
  have herror : (p.check tree checks).errors > 0 ↔ (p.check tree checks.eraseDups).errors > 0 := by
    simp only [Outcome.errors, Report.errorCount, gt_iff_lt, List.countP_pos_iff,
      mem_issues_eraseDups_iff hne]
  simp only [Outcome.status, exitOnErrors_check, herror]

/-- A rule that is named more than once has no issues if that changes nothing. -/
theorem issuesOf_eq_nil_of_eraseDups (hne : checks ≠ [])
    (h : p.check tree checks = p.check tree checks.eraseDups) {check : Check}
    (hcheck : 1 < checks.count check) : p.issuesOf tree check = [] := by
  have honce : checks.eraseDups.count check = 1 := by
    rw [count_eraseDups, if_pos (List.count_pos_iff.1 (Nat.lt_of_succ_lt hcheck))]
  have hlength : checks.count check * (p.issuesOf tree check).length =
      checks.eraseDups.count check * (p.issuesOf tree check).length := by
    cases check with
    | unused =>
        have hwarnings := congrArg Outcome.warnings h
        rwa [warnings_check hne, warnings_check (eraseDups_ne_nil hne)] at hwarnings
    | missing =>
        have herrors := congrArg Outcome.errors h
        rw [errors_check hne, errors_check (eraseDups_ne_nil hne)] at herrors
        exact Nat.add_right_cancel herrors
  refine List.eq_nil_of_length_eq_zero (Nat.eq_zero_of_not_pos fun hpos => ?_)
  have hcount := Nat.eq_of_mul_eq_mul_right hpos hlength
  rw [honce] at hcount
  exact absurd hcount (Nat.ne_of_gt hcheck)

/-- Nothing changes if the rules that are named more than once have no issues. -/
theorem check_eraseDups_eq (hne : checks ≠ [])
    (h : ∀ check, 1 < checks.count check → p.issuesOf tree check = []) :
    p.check tree checks = p.check tree checks.eraseDups := by
  refine check_eq_of_count (iff_of_false hne (eraseDups_ne_nil hne)) fun check => ?_
  by_cases hcheck : 1 < checks.count check
  · exact .inr (h check hcheck)
  · refine .inl ?_
    rw [count_eraseDups]
    split
    · rename_i hmem
      exact Nat.le_antisymm (Nat.le_of_not_lt hcheck) (List.count_pos_iff.2 hmem)
    · rename_i hmem
      exact List.count_eq_zero.2 hmem

/-- **Naming a rule again** tells its issues again: each issue is told as often as its rule is
named.  Which issues there are, and how the check ends, stays the same, and all of the outcome does
if and only if there are no issues of the rules that are named more than once. -/
theorem check_eraseDups (p : Project) (tree : Entry) {checks : List Check} (hne : checks ≠ []) :
    let told := p.check tree checks
    let once := p.check tree checks.eraseDups
    told.status = once.status ∧
    (∀ issue, issue ∈ told.issues ↔ issue ∈ once.issues) ∧
    (∀ issue, told.issues.count issue =
      checks.count .unused * (p.issuesOf tree .unused).count issue +
        checks.count .missing * (p.issuesOf tree .missing).count issue +
        (p.failureIssues tree).count issue) ∧
    told.warnings = checks.count .unused * (p.issuesOf tree .unused).length ∧
    told.errors = checks.count .missing * (p.issuesOf tree .missing).length +
      (p.failureIssues tree).length ∧
    (told = once ↔ ∀ check, 1 < checks.count check → p.issuesOf tree check = []) :=
  ⟨status_eraseDups hne, fun _ => mem_issues_eraseDups_iff hne,
    fun _ => countP_issues_check hne _, warnings_check hne, errors_check hne,
    fun h _ hcheck => issuesOf_eq_nil_of_eraseDups hne h hcheck, check_eraseDups_eq hne⟩

/-- A tree with a catalog that has one key, and with a source file that uses another one. -/
def strayTree : Entry :=
  .directory [("en.json", .file (.text "\x7b\"a\":1\x7d".toList)),
    ("src", .directory [("a.js", .file (.text "t('k')".toList))])]

/-- The missing key is told twice if its rule is named twice, and the unused key once. -/
theorem check_eraseDups_stray :
    let checks := [Check.missing, .unused, .missing]
    let told := scanningProject.check strayTree checks
    let once := scanningProject.check strayTree checks.eraseDups
    checks ≠ [] ∧ told.errors = 2 ∧ told.warnings = 1 ∧ told.status = once.status ∧
      told ≠ once := by
  intro checks told once
  have hne : checks ≠ [] := List.cons_ne_nil _ _
  have hunused : (scanningProject.issuesOf strayTree .unused).length = 1 := by decide +kernel
  have hmissing : (scanningProject.issuesOf strayTree .missing).length = 1 := by decide +kernel
  have hfailures : scanningProject.failureIssues strayTree = [] := by decide +kernel
  obtain ⟨hstatus, -, -, hwarnings, herrors, hsame⟩ := check_eraseDups scanningProject strayTree hne
  refine ⟨hne, ?_, ?_, hstatus, fun h => ?_⟩
  · rw [herrors, hmissing, hfailures]
    rfl
  · rw [hwarnings, hunused]
    rfl
  · have hnone := hsame.1 h .missing (by decide)
    rw [hnone] at hmissing
    exact absurd hmissing Nat.zero_ne_one

/-- A finding is told twice if its rule is named twice. -/
theorem unused_told_twice :
    let told := scanningProject.check strayTree [.unused, .unused]
    let once := scanningProject.check strayTree [Check.unused, .unused].eraseDups
    let issue := Issue.unusedKey ⟨"en.json", ⟨1, 2⟩, "a", "en", "1"⟩
    told.issues.count issue = 2 ∧ once.issues.count issue = 1 ∧
      told.warnings = 2 ∧ once.warnings = 1 := by
  intro told once issue
  have hunused : scanningProject.issuesOf strayTree .unused = [issue] := by decide +kernel
  have hfailures : scanningProject.failureIssues strayTree = [] := by decide +kernel
  have hne : [Check.unused, .unused] ≠ [] := List.cons_ne_nil _ _
  have hne' := eraseDups_ne_nil hne
  refine ⟨?_, ?_, ?_, ?_⟩
  · rw [List.count, countP_issues_check hne, hunused, hfailures]
    simp [issue]
  · rw [List.count, countP_issues_check hne', hunused, hfailures]
    simp [issue, count_eraseDups]
  · rw [warnings_check hne, hunused]
    rfl
  · rw [warnings_check hne', hunused, count_eraseDups]
    rfl

end Project

end LocaleAudit
