import FlashStrings.Command.Perform
import FlashStrings.Proofs.Run.Saved

/-!
# Exit status and writes

Whether a run has errors is asked before its outputs are written, again by the write
itself, and again when the run is reported, where the errors are counted in the order
of reports.  The count is the same in every order (`Issue.count_sort`), so the answers
agree.

`Command.Course` sums up how `check` and `generate` go on one tree
(`Command.course`): there is no run, or the run has errors, or its outputs are
written, or the write fails.  The statements about the two commands are read off it,
case by case, and put together in `Command.agrees`.
-/

namespace FlashStrings

/-! ## Errors among issues -/

namespace Issue

theorem count_sort (severity : Severity) (issues : List Issue) :
    count severity (sort issues) = count severity issues :=
  (List.mergeSort_perm issues le).countP_eq _

theorem anyError_iff {issues : List Issue} :
    anyError issues = true ↔ ∃ i ∈ issues, i.severity = .error := by
  simp [anyError]

/-- Errors are counted if there are any. -/
theorem count_error_sort_pos_iff {issues : List Issue} :
    0 < count .error (sort issues) ↔ anyError issues = true := by
  rw [count_sort, count, List.countP_pos_iff, anyError_iff]
  simp

end Issue

namespace Command

variable {color isCheck : Bool} {options : CommandOptions} {t t' : FileTree} {p p' : Project}
  {o o' : Outcome} {summary : WriteSummary} {written : Option (List String)}

/-! ## What a run answers -/

/-- The options name a project, and its run has an outcome. -/
structure Runs (options : CommandOptions) (t : FileTree) (p : Project) (o : Outcome) : Prop where
  /-- The project is loaded. -/
  load : Project.load t options.toProjectOptions = .ok p
  /-- The run could be made. -/
  run : p.run t = .ok o

theorem Runs.unique (h : Runs options t p o) (h' : Runs options t p' o') : p = p' ∧ o = o' := by
  obtain rfl := Except.ok.inj (h.load.symm.trans h'.load)
  exact ⟨rfl, Except.ok.inj (h.run.symm.trans h'.run)⟩

/-- The issues of an outcome as a command reports them. -/
def issueReport (color : Bool) (options : CommandOptions) (o : Outcome) : String :=
  Report.issues options.format color (Issue.sort o.issues)

/-- The line that a command ends its report with when all went well. -/
def successLine (color : Bool) (s : RunSummary) : String := unlines [Report.summaryLine color s]

theorem successLine_ne (color : Bool) (s : RunSummary) : successLine color s ≠ "" := by
  intro hnil
  have hline := congrArg String.toList hnil
  simp [successLine, unlines] at hline

/-- The answer reports the issues of an outcome and then success, and ends so. -/
structure Succeeds (color : Bool) (options : CommandOptions) (o : Outcome) (a : Answer) :
    Prop where
  /-- The status says so. -/
  status : a.status = .success
  /-- So does the last line. -/
  output : ∃ s, a.output = issueReport color options o ++ successLine color s

/-- The answer reports the issues of an outcome and nothing more, and ends with a failure. -/
structure Fails (color : Bool) (options : CommandOptions) (o : Outcome) (a : Answer) :
    Prop where
  /-- The status says so. -/
  status : a.status = .failure
  /-- There is no last line. -/
  output : a.output = issueReport color options o

/-- The answer ends with the line of success, behind the issues of the run. -/
def PrintsSuccess (color : Bool) (options : CommandOptions) (t : FileTree) (a : Answer) : Prop :=
  ∃ p o s, Runs options t p o ∧ a.output = issueReport color options o ++ successLine color s

theorem Succeeds.printsSuccess {a : Answer} (h : Succeeds color options o a)
    (hruns : Runs options t p o) : PrintsSuccess color options t a := by
  obtain ⟨s, hs⟩ := h.output
  exact ⟨p, o, s, hruns, hs⟩

theorem Fails.not_printsSuccess {a : Answer} (h : Fails color options o a)
    (hruns : Runs options t p o) : ¬PrintsSuccess color options t a := by
  rintro ⟨p', o', s, hruns', hs⟩
  obtain ⟨-, rfl⟩ := hruns.unique hruns'
  have hline := congrArg String.toList (h.output.symm.trans hs)
  rw [String.toList_append, List.self_eq_append_right] at hline
  exact successLine_ne color s (String.toList_eq_nil_iff.1 hline)

theorem not_printsSuccess_of_output {a : Answer} (h : a.output = "") :
    ¬PrintsSuccess color options t a := by
  rintro ⟨p, o, s, -, hs⟩
  exact successLine_ne color s (String.append_eq_empty_iff.1 (hs.symm.trans h)).2

/-- The answer reports this text, and nothing but success behind it. -/
def Reports (color : Bool) (text : String) (a : Answer) : Prop :=
  a.output = text ∨ ∃ s, a.output = text ++ successLine color s

/-- The answer of a run, with what is told on the way. -/
def toldAnswer (color isCheck : Bool) (options : CommandOptions) (p : Project) (o : Outcome)
    (written : Option (List String)) : Answer :=
  { runAnswer color isCheck options o written with
    messages := noteLines color options.verbose (p.configNote :: o.notes) }

/-- A run with errors fails. -/
theorem fails_of_anyError (h : Issue.anyError o.issues = true) :
    Fails color options o (toldAnswer color isCheck options p o written) := by
  have hcount := Issue.count_error_sort_pos_iff.2 h
  refine ⟨if_pos hcount, ?_⟩
  rw [toldAnswer, runAnswer, Report.run]
  simp only [if_neg (Nat.ne_of_gt hcount), String.append_empty]
  rfl

/-- A run without errors succeeds. -/
theorem succeeds_of_no_error (h : Issue.anyError o.issues = false) :
    Succeeds color options o (toldAnswer color isCheck options p o written) := by
  have hcount : ¬0 < Issue.count .error (Issue.sort o.issues) := by
    rw [Issue.count_error_sort_pos_iff, h]
    exact Bool.false_ne_true
  refine ⟨if_neg hcount, ⟨isCheck, o.filesScanned, o.emittedCount, o.database.autoInit.length,
    written⟩, ?_⟩
  rw [toldAnswer, runAnswer, Report.run]
  simp only [if_pos (Nat.eq_zero_of_not_pos hcount)]
  rfl

/-! ## How the commands go -/

/-- How `check` and `generate` go: the answer of the first, and the tree and the answer
that the second leaves. -/
inductive Course (color : Bool) (options : CommandOptions) (t : FileTree) :
    Answer → FileTree → Answer → Prop where
  /-- There is no run. -/
  | noRun {a : Answer} : (∀ p o, ¬Runs options t p o) → a.output = "" → a.status = .error →
      Course color options t a t a
  /-- The run has errors. -/
  | refused {p : Project} {o : Outcome} {a b : Answer} : Runs options t p o →
      Issue.anyError o.issues = true → Fails color options o a → Fails color options o b →
      Course color options t a t b
  /-- The outputs are written. -/
  | written {p : Project} {o : Outcome} {a b : Answer} {t' : FileTree} {summary : WriteSummary} :
      Runs options t p o → p.write t o = (t', .ok summary) → Succeeds color options o a →
      Succeeds color options o b → Course color options t a t' b
  /-- A step of the write fails. -/
  | stopped {p : Project} {o : Outcome} {a b : Answer} {t' : FileTree} {s : FileStep} :
      Runs options t p o → Issue.anyError o.issues = false → Succeeds color options o a →
      b.output = "" → b.status = .error → b.failure = some (.step s) →
      Course color options t a t' b

/-- The commands fail alike if there is no run. -/
theorem performRun_of_not_runs (h : ∀ p o, ¬Runs options t p o) : ∃ a : Answer,
    a.output = "" ∧ a.status = .error ∧
      ∀ isCheck, performRun color isCheck options t = (t, a) := by
  cases hload : Project.load t options.toProjectOptions with
  | error failure =>
    exact ⟨{ failure := some failure }, rfl, rfl, fun isCheck => by rw [performRun, hload]⟩
  | ok p =>
    cases hrun : p.run t with
    | error failure =>
      refine ⟨{ messages := noteLines color options.verbose [p.configNote]
                failure := some failure }, rfl, rfl, fun isCheck => ?_⟩
      rw [performRun, hload]
      simp only [hrun]
    | ok o => exact absurd ⟨hload, hrun⟩ (h p o)

theorem perform_check (h : Runs options t p o) :
    perform color t (.check options) = (t, toldAnswer color true options p o none) := by
  rw [perform, performRun, h.load]
  simp only [h.run, if_true]
  rfl

theorem perform_generate_of_anyError (h : Runs options t p o)
    (herror : Issue.anyError o.issues = true) :
    perform color t (.generate options) = (t, toldAnswer color false options p o (some [])) := by
  rw [perform, performRun, h.load]
  simp only [h.run, if_neg Bool.false_ne_true, if_pos herror]
  rfl

theorem perform_generate_of_write (h : Runs options t p o)
    (hwrite : p.write t o = (t', .ok summary)) :
    perform color t (.generate options) = (t', toldAnswer color false options p o
      (some (summary.written.map (·.relativeTo p.root)))) := by
  rw [perform, performRun, h.load]
  have hok := (Project.read?_write hwrite).1
  simp only [h.run, if_neg Bool.false_ne_true, hok, hwrite]
  rfl

/-- Without errors a write can only fail at one of its steps. -/
theorem write_cases (h : Issue.anyError o.issues = false) (p : Project) (t : FileTree) :
    (∃ t' summary, p.write t o = (t', .ok summary)) ∨
      ∃ t' s, p.write t o = (t', .error (.step s)) := by
  rw [Project.write, h, if_neg Bool.false_ne_true]
  rcases FileStep.performAll t (p.writeSteps t o) with ⟨t', _ | s⟩
  · exact .inl ⟨t', _, rfl⟩
  · exact .inr ⟨t', s, rfl⟩

theorem perform_generate_of_stop (h : Runs options t p o)
    (hok : Issue.anyError o.issues = false) {s : FileStep}
    (hwrite : p.write t o = (t', .error (.step s))) :
    perform color t (.generate options) = (t', {
      messages := noteLines color options.verbose (p.configNote :: o.notes)
      failure := some (.step s) }) := by
  rw [perform, performRun, h.load]
  simp only [h.run, if_neg Bool.false_ne_true, hok, hwrite]

/-- The two commands go the same way until the outputs are written. -/
theorem course (color : Bool) (options : CommandOptions) (t : FileTree) :
    Course color options t (perform color t (.check options)).2
      (perform color t (.generate options)).1 (perform color t (.generate options)).2 := by
  by_cases hruns : ∃ p o, Runs options t p o
  · obtain ⟨p, o, hruns⟩ := hruns
    rw [perform_check hruns]
    cases herror : Issue.anyError o.issues with
    | true =>
      rw [perform_generate_of_anyError hruns herror]
      exact .refused hruns herror (fails_of_anyError herror) (fails_of_anyError herror)
    | false =>
      rcases write_cases herror p t with ⟨t', summary, hwrite⟩ | ⟨t', s, hwrite⟩
      · rw [perform_generate_of_write hruns hwrite]
        exact .written hruns hwrite (succeeds_of_no_error herror) (succeeds_of_no_error herror)
      · rw [perform_generate_of_stop hruns herror hwrite]
        exact .stopped hruns herror (succeeds_of_no_error herror) rfl rfl rfl
  · obtain ⟨a, houtput, hstatus, hperform⟩ :=
      performRun_of_not_runs fun p o h => hruns ⟨p, o, h⟩
    rw [perform, perform, hperform, hperform]
    exact .noRun (fun p o h => hruns ⟨p, o, h⟩) houtput hstatus

/-- `check` writes nothing. -/
theorem check_unchanged (color : Bool) (options : CommandOptions) (t : FileTree) :
    (perform color t (.check options)).1 = t := by
  by_cases hruns : ∃ p o, Runs options t p o
  · obtain ⟨p, o, hruns⟩ := hruns
    rw [perform_check hruns]
  · obtain ⟨a, -, -, hperform⟩ := performRun_of_not_runs fun p o h => hruns ⟨p, o, h⟩
    rw [perform, hperform]

/-! ## What the commands agree on -/

namespace Course

variable {a b : Answer}

/-- Nothing changes if the status is that of a failure. -/
theorem eq_of_code_eq_one (h : Course color options t a t' b) (hcode : b.status.code = 1) :
    t' = t := by
  cases h with
  | noRun => rfl
  | refused => rfl
  | written _ _ _ hb =>
    rw [hb.status] at hcode
    cases hcode
  | stopped _ _ _ _ hb _ =>
    rw [hb] at hcode
    cases hcode

/-- The status is that of a failure just when the run has errors. -/
theorem code_eq_one_iff (h : Course color options t a t' b) : b.status.code = 1 ↔
    ∃ p o, Runs options t p o ∧ ∃ i ∈ o.issues, i.severity = .error := by
  have hno : ∀ {p p' : Project} {o o' : Outcome}, Runs options t p o →
      Issue.anyError o.issues = false → Runs options t p' o' →
      ¬∃ i ∈ o'.issues, i.severity = .error := by
    intro p p' o o' hruns hok hruns' herror
    obtain ⟨-, rfl⟩ := hruns.unique hruns'
    rw [Issue.anyError_iff.2 herror] at hok
    cases hok
  cases h with
  | noRun hnone _ hstatus =>
    rw [hstatus]
    exact iff_of_false (by decide) fun ⟨p, o, hruns, _⟩ => hnone p o hruns
  | refused hruns herror _ hb =>
    rw [hb.status]
    exact iff_of_true rfl ⟨_, _, hruns, Issue.anyError_iff.1 herror⟩
  | written hruns hwrite _ hb =>
    rw [hb.status]
    exact iff_of_false (by decide) fun ⟨_, _, hruns', herror⟩ =>
      hno hruns (Project.read?_write hwrite).1 hruns' herror
  | stopped hruns hok _ _ hb _ =>
    rw [hb]
    exact iff_of_false (by decide) fun ⟨_, _, hruns', herror⟩ => hno hruns hok hruns' herror

/-- The status is that of a success only after a write that succeeded. -/
theorem exists_write (h : Course color options t a t' b) (hcode : b.status.code = 0) :
    ∃ p o summary, Runs options t p o ∧ p.write t o = (t', .ok summary) := by
  cases h with
  | noRun _ _ hstatus =>
    rw [hstatus] at hcode
    cases hcode
  | refused _ _ _ hb =>
    rw [hb.status] at hcode
    cases hcode
  | written hruns hwrite _ _ => exact ⟨_, _, _, hruns, hwrite⟩
  | stopped _ _ _ _ hb _ =>
    rw [hb] at hcode
    cases hcode

/-- `check` answers like `generate`, unless a step of the write fails. -/
theorem same (h : Course color options t a t' b) (hstep : ∀ s, b.failure ≠ some (.step s)) :
    a.status = b.status ∧ ∃ text, Reports color text a ∧ Reports color text b ∧
      ∀ p o, Runs options t p o → text = issueReport color options o := by
  have hissues : ∀ {p : Project} {o : Outcome}, Runs options t p o →
      ∀ p' o', Runs options t p' o' → issueReport color options o = issueReport color options o' :=
    fun hruns p' o' hruns' => by rw [(hruns.unique hruns').2]
  cases h with
  | noRun hnone houtput hstatus =>
    exact ⟨rfl, "", .inl houtput, .inl houtput, fun p o hruns => absurd hruns (hnone p o)⟩
  | refused hruns _ ha hb =>
    exact ⟨ha.status.trans hb.status.symm, _, .inl ha.output, .inl hb.output, hissues hruns⟩
  | written hruns _ ha hb =>
    exact ⟨ha.status.trans hb.status.symm, _, .inr ha.output, .inr hb.output, hissues hruns⟩
  | stopped _ _ _ _ _ hfailure => exact absurd hfailure (hstep _)

/-- Success is printed just when it is the status. -/
theorem printsSuccess_iff (h : Course color options t a t' b) :
    (PrintsSuccess color options t a ↔ a.status.code = 0) ∧
      (PrintsSuccess color options t b ↔ b.status.code = 0) := by
  have hsucceeds : ∀ {p : Project} {o : Outcome} {a : Answer}, Runs options t p o →
      Succeeds color options o a → (PrintsSuccess color options t a ↔ a.status.code = 0) :=
    fun hruns ha => iff_of_true (ha.printsSuccess hruns) (by rw [ha.status]; rfl)
  have hfails : ∀ {p : Project} {o : Outcome} {a : Answer}, Runs options t p o →
      Fails color options o a → (PrintsSuccess color options t a ↔ a.status.code = 0) :=
    fun hruns ha => iff_of_false (ha.not_printsSuccess hruns) (by rw [ha.status]; decide)
  have herror : ∀ {a : Answer}, a.output = "" → a.status = .error →
      (PrintsSuccess color options t a ↔ a.status.code = 0) :=
    fun houtput hstatus => iff_of_false (not_printsSuccess_of_output houtput)
      (by rw [hstatus]; decide)
  cases h with
  | noRun _ houtput hstatus => exact ⟨herror houtput hstatus, herror houtput hstatus⟩
  | refused hruns _ ha hb => exact ⟨hfails hruns ha, hfails hruns hb⟩
  | written hruns _ ha hb => exact ⟨hsucceeds hruns ha, hsucceeds hruns hb⟩
  | stopped hruns _ ha houtput hstatus _ => exact ⟨hsucceeds hruns ha, herror houtput hstatus⟩

end Course

/-- Exit status, writes and reports of the commands agree. -/
structure Agrees (color : Bool) (options : CommandOptions) (t : FileTree) : Prop where
  /-- Looking changes nothing. -/
  looks : (perform color t (.check options)).1 = t ∧ (perform color t (.query options)).1 = t
  /-- Neither does a failed `generate`. -/
  failed : (perform color t (.generate options)).2.status.code = 1 →
    (perform color t (.generate options)).1 = t
  /-- It fails just when the run has an error. -/
  failed_iff : (perform color t (.generate options)).2.status.code = 1 ↔
    ∃ p o, Runs options t p o ∧ ∃ i ∈ o.issues, i.severity = .error
  /-- It succeeds only after the outputs of the run are written. -/
  written : (perform color t (.generate options)).2.status.code = 0 →
    ∃ p o summary, Runs options t p o ∧
      p.write t o = ((perform color t (.generate options)).1, .ok summary)
  /-- `check` ends like `generate` and reports the same issues, unless a step of the
  write fails. -/
  same : (∀ s, (perform color t (.generate options)).2.failure ≠ some (.step s)) →
    (perform color t (.check options)).2.status = (perform color t (.generate options)).2.status ∧
      ∃ text, Reports color text (perform color t (.check options)).2 ∧
        Reports color text (perform color t (.generate options)).2 ∧
        ∀ p o, Runs options t p o → text = issueReport color options o
  /-- Success is printed just when it is the status. -/
  success : ∀ c ∈ [Command.check options, .generate options],
    PrintsSuccess color options t (perform color t c).2 ↔ (perform color t c).2.status.code = 0
  /-- The outputs of a run with errors are not written, whoever asks for it. -/
  refused : ∀ (p : Project) (o : Outcome), (∃ i ∈ o.issues, i.severity = .error) →
    p.write t o = (t, .error .runWithErrors)

/-- For all settings and trees the exit status says what became of the files and what
was printed. -/
theorem agrees (color : Bool) (options : CommandOptions) (t : FileTree) :
    Agrees color options t := by
  have h := course color options t
  exact {
    looks := ⟨check_unchanged color options t, rfl⟩
    failed := h.eq_of_code_eq_one
    failed_iff := h.code_eq_one_iff
    written := h.exists_write
    same := h.same
    success := by simpa using h.printsSuccess_iff
    refused := fun p o herror => by
      rw [Project.write, if_pos (Issue.anyError_iff.2 herror)] }

end Command

end FlashStrings
