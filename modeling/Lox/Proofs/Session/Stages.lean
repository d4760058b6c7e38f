import Lox.Proofs.Execution.Output
import Lox.Session

/-!
# The stages of a run

A run reports what is wrong with its source text and then, unless an error is on record, dumps the
program and executes it.  Over a sink that takes everything, executing a program leaves what the
program leaves on the machine, and after a runtime error the report and the flag too
(`execute_eq_ended`).

So over such a sink there are three kinds of runs.  A text that can not be read is reported and goes
on record (`run_of_unreadable`); with an error on record nothing is done with a text that can be read
(`run_of_hadError`); and every other run executes its program (`run_of_readable`).  Only the last
kind ends as the program ends (`executes_iff`): the others do not flush the sink, and the last event
of theirs is not a runtime error.

Over any sink, a run of a text that can not be read leaves the global variables alone
(`sameGlobals_run`).
-/

namespace Lox

namespace Machine

/-- The machine after a text was written. -/
def writing (m : Machine) (text : String) : Machine :=
  { m with sink := { m.sink with held := m.sink.held ++ text.toUTF8 } }

@[simp]
theorem writing_empty (m : Machine) : m.writing "" = m := by
  have hempty : ("" : String).toUTF8 = ByteArray.empty := rfl
  rw [writing, hempty, ByteArray.append_empty]

@[simp]
theorem writing_writing (m : Machine) (text text' : String) :
    (m.writing text).writing text' = m.writing (text ++ text') := by
  simp only [writing, String.toUTF8, String.toByteArray_append, ByteArray.append_assoc]

theorem writeLine_eq (m : Machine) (h : m.sink.Reliable) (text : String) :
    Run.writeLine text m = .ok () (m.writing (text ++ "\n")) := by
  unfold Run.writeLine Run.output
  simp only [h.write_eq]
  rfl

end Machine

namespace Session

/-- The statements of a source text. -/
def statements (source : String) : List Stmt := (parse (scan source).tokens).statements

/-- The source text is read without errors. -/
structure Readable (source : String) : Prop where
  lexical : (scan source).errors = []
  grammatical : (parse (scan source).tokens).errors = []

theorem readable_iff (source : String) : Readable source ↔
    ((scan source).errors.isEmpty && (parse (scan source).tokens).errors.isEmpty) = true := by
  rw [Bool.and_eq_true, List.isEmpty_iff, List.isEmpty_iff]
  exact ⟨fun h => ⟨h.lexical, h.grammatical⟩, fun h => ⟨h.1, h.2⟩⟩

/-! ### On the machine -/

/-- The session with other events. -/
def withEvents (s : Session) (events : List Event) : Session :=
  { s with machine := { s.machine with events } }

section

variable {s : Session} {m : Machine} {α : Type} {x : Environment → Run α}

theorem onMachine_of_ok {a : α} (h : x s.globals s.machine = .ok a m) :
    onMachine x s = .ok a { s with machine := m } := by
  obtain ⟨globals, machine, hadError, hadRuntimeError, dumpsTrees⟩ := s
  simp only [onMachine] at h ⊢
  rw [h]

theorem onMachine_of_error {e : Stop} (h : x s.globals s.machine = .error e m) :
    onMachine x s = .error e { s with machine := m } := by
  obtain ⟨globals, machine, hadError, hadRuntimeError, dumpsTrees⟩ := s
  simp only [onMachine] at h ⊢
  rw [h]

theorem onMachine_eq (x : Environment → Run α) (s : Session) :
    onMachine x s = mapState (fun m => { s with machine := m }) (x s.globals s.machine) := by
  cases h : x s.globals s.machine with
  | ok a m => exact onMachine_of_ok h
  | error e m => exact onMachine_of_error h

end

theorem tell_eq (events : List Event) (s : Session) :
    tell events s = .ok () (s.withEvents (events.reverse ++ s.machine.events)) := by
  have hrun : ∀ (es : List Event) (m : Machine), (es.forM Run.tell : Run Unit) m =
      .ok () { m with events := es.reverse ++ m.events } := by
    intro es
    induction es with
    | nil => exact fun _ => rfl
    | cons e es ih =>
      intro m
      rw [List.reverse_cons, List.append_assoc]
      exact ih ⟨m.scopes, m.sink, e :: m.events⟩
  exact onMachine_of_ok (hrun events s.machine)

/-! ### Over any sink -/

/-- The session has the same global variables, and all other scopes are the same too. -/
structure SameGlobals (s s' : Session) : Prop where
  globals_eq : s'.globals = s.globals
  scopes_eq : s'.machine.scopes = s.machine.scopes

/-- No variable has changed, and no runtime error has gone on record. -/
structure OnlyReported (s s' : Session) : Prop extends SameGlobals s s' where
  hadRuntimeError_eq : s'.hadRuntimeError = s.hadRuntimeError

/-- Nothing has changed but the sink. -/
structure OnlyWrote (s s' : Session) : Prop extends OnlyReported s s' where
  events_eq : s'.machine.events = s.machine.events
  hadError_eq : s'.hadError = s.hadError

theorem OnlyReported.trans {s s' s'' : Session} (h : OnlyReported s s') (h' : OnlyReported s' s'') :
    OnlyReported s s'' :=
  ⟨⟨h'.globals_eq.trans h.globals_eq, h'.scopes_eq.trans h.scopes_eq⟩,
    h'.hadRuntimeError_eq.trans h.hadRuntimeError_eq⟩

theorem OnlyWrote.refl (s : Session) : OnlyWrote s s := ⟨⟨⟨rfl, rfl⟩, rfl⟩, rfl, rfl⟩

theorem stays_tell (events : List Event) : Stays OnlyReported (tell events) := by
  intro s
  rw [tell_eq]
  exact ⟨⟨rfl, rfl⟩, rfl⟩

theorem stays_writeLines (lines : List String) : Stays OnlyWrote (writeLines lines) := by
  have hlines : Stays (fun m m' => m'.scopes = m.scopes ∧ m'.events = m.events)
      (lines.forM Run.writeLine : Run Unit) := by
    induction lines with
    | nil => exact fun _ => ⟨rfl, rfl⟩
    | cons l lines ih =>
      have hline : Stays (fun m m' => m'.scopes = m.scopes ∧ m'.events = m.events)
          (Run.writeLine l) := by
        rintro ⟨scopes, sink, events⟩
        unfold Run.writeLine Run.output
        dsimp only
        cases Sink.write (l ++ "\n").toUTF8 sink with
        | ok _ sink => exact ⟨rfl, rfl⟩
        | error f sink => exact ⟨rfl, rfl⟩
      exact hline.bind (fun h h' => ⟨h'.1.trans h.1, h'.2.trans h.2⟩) fun _ => ih
  intro s
  obtain ⟨hscopes, hevents⟩ := hlines s.machine
  rw [writeLines, onMachine_eq, endOf_mapState]
  exact ⟨⟨⟨rfl, hscopes⟩, rfl⟩, hevents, rfl⟩

/-! ### Writing to a sink that takes everything -/

/-- Lines of text, with the end of each. -/
def textOf (lines : List String) : String := String.join (lines.map (· ++ "\n"))

@[simp]
theorem textOf_append (lines lines' : List String) :
    textOf (lines ++ lines') = textOf lines ++ textOf lines' := by
  rw [textOf, List.map_append, String.join_append]
  rfl

/-- The session after a text was written. -/
def writing (s : Session) (text : String) : Session := { s with machine := s.machine.writing text }

@[simp]
theorem writing_empty (s : Session) : s.writing "" = s := by
  rw [writing, Machine.writing_empty]

theorem reliable_writing {s : Session} (h : s.machine.sink.Reliable) (text : String) :
    (s.writing text).machine.sink.Reliable := ⟨h.limit_eq, h.failFlush_eq⟩

theorem forM_writeLine_eq (lines : List String) {m : Machine} (h : m.sink.Reliable) :
    (lines.forM Run.writeLine : Run Unit) m = .ok () (m.writing (textOf lines)) := by
  induction lines generalizing m with
  | nil =>
    rw [show textOf [] = "" from rfl, Machine.writing_empty]
    rfl
  | cons l lines ih =>
    have hnext : (m.writing (l ++ "\n")).sink.Reliable := ⟨h.limit_eq, h.failFlush_eq⟩
    refine (bind_of_ok (fun _ => lines.forM Run.writeLine) (m.writeLine_eq h l)).trans
      ((ih hnext).trans ?_)
    rw [Machine.writing_writing, textOf, textOf, List.map_cons, String.join_cons]

theorem writeLines_eq {s : Session} (h : s.machine.sink.Reliable) (lines : List String) :
    writeLines lines s = .ok () (s.writing (textOf lines)) :=
  onMachine_of_ok (forM_writeLine_eq lines h)

/-! ### Reports -/

/-- The reports of what is wrong with a source text: first with the text, then with the grammar. -/
def complaints (source : String) : String :=
  textOf ((scan source).errors.map LexicalError.report ++
    (parse (scan source).tokens).errors.map GrammarError.report)

theorem complaints_of_readable {source : String} (h : Readable source) : complaints source = "" := by
  rw [complaints, h.lexical, h.grammatical]
  rfl

/-- The event that a source text is not run. -/
def notRun (source : String) : Event :=
  .notExecuting (scan source).errors.length (parse (scan source).tokens).errors.length

theorem report_of_readable {source : String} (h : Readable source) (s : Session) :
    report (scan source) (parse (scan source).tokens) s = .ok () s := by
  unfold report
  rw [h.lexical, h.grammatical]
  rfl

/-- What can not be read is put on record, over any sink, if the reports could be written. -/
theorem report_eq_recorded {source : String} (h : ¬Readable source) :
    report (scan source) (parse (scan source).tokens) = (do
      writeLines ((scan source).errors.map LexicalError.report)
      writeLines ((parse (scan source).tokens).errors.map GrammarError.report)
      tell [notRun source]
      modify fun s => { s with hadError := true }) := by
  unfold report
  rw [if_neg (mt (readable_iff source).mpr h)]
  rfl

theorem stays_report {source : String} (h : ¬Readable source) :
    Stays OnlyReported (report (scan source) (parse (scan source).tokens)) := by
  have hlines : ∀ lines, Stays OnlyReported (writeLines lines) :=
    fun lines s => (stays_writeLines lines s).toOnlyReported
  rw [report_eq_recorded h]
  exact (hlines _).bind OnlyReported.trans fun _ => (hlines _).bind OnlyReported.trans fun _ =>
    (stays_tell _).bind OnlyReported.trans fun _ _ => ⟨⟨rfl, rfl⟩, rfl⟩

/-- If the reports could be written, what can not be read is on record. -/
theorem hadError_of_report {source : String} (h : ¬Readable source) {s s' : Session}
    (hs : report (scan source) (parse (scan source).tokens) s = .ok () s') :
    s'.hadError = true := by
  rw [report_eq_recorded h] at hs
  obtain ⟨_, s₁, -, hs⟩ := exists_of_bind_ok hs
  obtain ⟨_, s₂, -, hs⟩ := exists_of_bind_ok hs
  obtain ⟨_, s₃, -, hs⟩ := exists_of_bind_ok hs
  cases hs
  rfl

theorem report_of_unreadable {source : String} (h : ¬Readable source) {s : Session}
    (hs : s.machine.sink.Reliable) :
    report (scan source) (parse (scan source).tokens) s =
      .ok () { (s.writing (complaints source)).withEvents (notRun source :: s.machine.events) with
        hadError := true } := by
  rw [report_eq_recorded h, bind_of_ok _ (writeLines_eq hs _),
    bind_of_ok _ (writeLines_eq (reliable_writing hs _) _), bind_of_ok _ (tell_eq _ _),
    writing, writing, Machine.writing_writing, ← textOf_append]
  rfl

/-! ### Executing -/

theorem modify_eq (f : Session → Session) (s : Session) :
    (modify f : Step Unit) s = .ok () (f s) := rfl

/-- A runtime error goes on record before its report is written. -/
theorem onlyWrote_failWith (e : RuntimeError) (s : Session) :
    OnlyWrote { s.withEvents (.runtimeError e.line e.lexeme :: s.machine.events) with
      hadRuntimeError := true } (endOf (failWith e s)) := by
  unfold failWith
  rw [bind_of_ok _ (tell_eq _ _), bind_of_ok _ (modify_eq _ _)]
  exact stays_writeLines _ _

/-- The session when a program has ended on its machine.  After a runtime error the report is
written and the flag is set. -/
def ended (s : Session) : EStateM.Result Stop Machine Unit → EStateM.Result Stop Session Unit
  | .ok () m => .ok () { s with machine := m }
  | .error (.fault e) m => .ok () { s with
      machine := { m.writing (e.report ++ "\n") with
        events := .runtimeError e.line e.lexeme :: m.events }
      hadRuntimeError := true }
  | .error e m => .error e { s with machine := m }

theorem failWith_eq {s : Session} (hs : s.machine.sink.Reliable) (e : RuntimeError) :
    failWith e s = s.ended (.error (.fault e) s.machine) := by
  unfold failWith
  rw [bind_of_ok _ (tell_eq _ _), bind_of_ok _ (modify_eq _ _)]
  exact writeLines_eq (s := { s.withEvents (.runtimeError e.line e.lexeme :: s.machine.events) with
    hadRuntimeError := true }) hs [e.report]

/-- **Executing a program leaves what the program leaves,** and the report of its runtime error. -/
theorem execute_eq_ended (bound : Nat) (program : List Stmt) {s : Session}
    (hs : s.machine.sink.Reliable) :
    execute bound program s = s.ended (interpret bound s.globals program s.machine) := by
  have hreliable := reliable_interpret bound s.globals program hs
  unfold execute
  cases hrun : interpret bound s.globals program s.machine with
  | ok a m =>
    rw [onMachine_of_ok hrun]
    rfl
  | error e m =>
    rw [hrun] at hreliable
    rw [onMachine_of_error hrun]
    cases e with
    | fault e => exact failWith_eq (s := { s with machine := m }) hreliable e
    | refused f => rfl
    | exhausted => rfl

/-! ### After the reports -/

/-- The dump of a program, if the session makes one. -/
def dumped (s : Session) (program : List Stmt) : String :=
  if s.dumpsTrees then textOf (Stmt.dumpEach program) else ""

section

variable (bound : Nat) (program : List Stmt) {s : Session}

theorem runProgram_of_hadError (h : s.hadError = true) :
    runProgram bound program s = .ok () s := by
  have hget : (get : Step Session) s = .ok s s := rfl
  unfold runProgram
  rw [bind_of_ok _ hget, if_pos h]
  rfl

variable (herror : s.hadError = false)

include herror

theorem runProgram_of_dumps (h : s.dumpsTrees = true) : runProgram bound program s =
    (do writeLines (Stmt.dumpEach program); execute bound program : Step Unit) s := by
  have hget : (get : Step Session) s = .ok s s := rfl
  unfold runProgram
  rw [bind_of_ok _ hget, if_neg (by simp [herror]), bind_of_ok _ hget, if_pos h]

theorem runProgram_of_not_dumps (h : s.dumpsTrees = false) :
    runProgram bound program s = execute bound program s := by
  have hget : (get : Step Session) s = .ok s s := rfl
  unfold runProgram
  rw [bind_of_ok _ hget, if_neg (by simp [herror]), bind_of_ok _ hget, if_neg (by simp [h])]

theorem runProgram_of_clear (hs : s.machine.sink.Reliable) : runProgram bound program s =
    execute bound program (s.writing (s.dumped program)) := by
  unfold dumped
  cases hd : s.dumpsTrees with
  | true =>
    rw [runProgram_of_dumps bound program herror hd, bind_of_ok _ (writeLines_eq hs _), if_pos rfl]
  | false =>
    rw [runProgram_of_not_dumps bound program herror hd, if_neg Bool.false_ne_true, writing_empty]

end

/-! ### Reading -/

/-- The session when a source text has been read, and the observer told of it. -/
def afterReading (s : Session) (source : String) : Session :=
  s.withEvents ((Event.ofProgram (parse (scan source).tokens)).reverse ++
    ((Event.ofScan (scan source)).reverse ++ s.machine.events))

@[simp]
theorem hadError_afterReading (s : Session) (source : String) :
    (s.afterReading source).hadError = s.hadError := rfl

@[simp]
theorem hadRuntimeError_afterReading (s : Session) (source : String) :
    (s.afterReading source).hadRuntimeError = s.hadRuntimeError := rfl

theorem head?_afterReading (s : Session) (source : String) :
    ∃ n k, (s.afterReading source).machine.events.head? = some (.parsed n k) := by
  rw [afterReading, Event.ofProgram, List.reverse_append]
  exact ⟨_, _, rfl⟩

theorem reliable_afterReading {s : Session} (h : s.machine.sink.Reliable) (source : String) :
    (s.afterReading source).machine.sink.Reliable := h

theorem run_eq (bound : Nat) (source : String) (s : Session) :
    run bound source s =
      (report (scan source) (parse (scan source).tokens) >>= fun _ =>
        runProgram bound (statements source)) (s.afterReading source) := by
  unfold run
  rw [bind_of_ok _ (tell_eq _ _)]
  exact bind_of_ok _ (tell_eq _ _)

section

variable {source : String} (bound : Nat) (s : Session)

/-- **What can not be read is reported,** and that is all. -/
theorem run_eq_report (h : ¬Readable source) : run bound source s =
    report (scan source) (parse (scan source).tokens) (s.afterReading source) := by
  rw [run_eq]
  cases hr : report (scan source) (parse (scan source).tokens) (s.afterReading source) with
  | ok _ s' =>
    rw [bind_of_ok _ hr]
    exact runProgram_of_hadError bound _ (hadError_of_report h hr)
  | error e s' => exact bind_of_error _ hr

theorem run_eq_runProgram (h : Readable source) : run bound source s =
    runProgram bound (statements source) (s.afterReading source) := by
  rw [run_eq, bind_of_ok _ (report_of_readable h _)]

theorem onlyReported_run (h : ¬Readable source) : OnlyReported s (endOf (run bound source s)) := by
  have hread : OnlyReported s (s.afterReading source) := ⟨⟨rfl, rfl⟩, rfl⟩
  rw [run_eq_report bound s h]
  exact hread.trans (stays_report h _)

/-- **A text that can not be read leaves the global variables alone,** whatever the sink does. -/
theorem sameGlobals_run (h : ¬Readable source) : SameGlobals s (endOf (run bound source s)) :=
  (onlyReported_run bound s h).toSameGlobals

end

/-! ### The three kinds of runs -/

/-- The session when it comes to execute the program of a source text. -/
def atProgram (s : Session) (source : String) : Session :=
  (s.afterReading source).writing (s.dumped (statements source))

theorem reliable_atProgram {s : Session} (h : s.machine.sink.Reliable) (source : String) :
    (s.atProgram source).machine.sink.Reliable := reliable_writing (reliable_afterReading h source) _

section

variable {source : String} {s : Session} (bound : Nat)

/-- **With an error on record nothing is executed.** -/
theorem run_of_hadError (h : Readable source) (herror : s.hadError = true) :
    run bound source s = .ok () (s.afterReading source) :=
  (run_eq_runProgram bound s h).trans (runProgram_of_hadError bound _ herror)

variable (hs : s.machine.sink.Reliable)

include hs

/-- **What can not be read is reported and put on record,** and nothing is executed. -/
theorem run_of_unreadable (h : ¬Readable source) : run bound source s =
    .ok () { ((s.afterReading source).writing (complaints source)).withEvents
        (notRun source :: (s.afterReading source).machine.events) with
      hadError := true } :=
  (run_eq_report bound s h).trans (report_of_unreadable h (reliable_afterReading hs source))

/-- **What can be read is executed,** unless an error is on record. -/
theorem run_of_readable (h : Readable source) (herror : s.hadError = false) :
    run bound source s = (s.atProgram source).ended
      (interpret bound s.globals (statements source) (s.atProgram source).machine) := by
  have hdumps := runProgram_of_clear bound (statements source) (s := s.afterReading source)
    herror (reliable_afterReading hs source)
  rw [run_eq_runProgram bound s h, hdumps]
  exact execute_eq_ended bound _ (reliable_atProgram hs source)

end

/-- The run executes the statements of its text: it ends as they end on the machine, once their dump
is written. -/
def Executes (s : Session) (source : String) : Prop :=
  ∀ bound, run bound source s = (s.atProgram source).ended
    (interpret bound s.globals (statements source) (s.atProgram source).machine)

/-- A run that does not flush the sink, and whose last event is not a runtime error, does not end as
a program does. -/
theorem not_executes {source : String} {s s' : Session} (hs : s.machine.sink.Reliable) {bound : Nat}
    (hrun : run bound source s = .ok () s')
    (hflushes : s'.machine.sink.flushes = s.machine.sink.flushes)
    (hevents : ∀ line lexeme, s'.machine.events.head? ≠ some (.runtimeError line lexeme)) :
    ¬s.Executes source := by
  intro hexecutes
  have hend := hrun.symm.trans (hexecutes bound)
  cases hi : interpret bound s.globals (statements source) (s.atProgram source).machine with
  | ok a m =>
    rw [hi] at hend
    cases hend
    have hlt := flushes_lt_of_interpret (reliable_atProgram hs source) hi
    exact absurd hflushes (Nat.ne_of_gt hlt)
  | error e m =>
    rw [hi] at hend
    cases e with
    | fault e =>
      cases hend
      exact hevents e.line e.lexeme rfl
    | refused f => cases hend
    | exhausted => cases hend

/-- **A run executes its program exactly if its text can be read and no error is on record.** -/
theorem executes_iff {source : String} {s : Session} (hs : s.machine.sink.Reliable) :
    s.Executes source ↔ Readable source ∧ s.hadError = false := by
  by_cases hreadable : Readable source
  · cases herror : s.hadError with
    | false =>
      exact iff_of_true (fun bound => run_of_readable bound hs hreadable herror) ⟨hreadable, rfl⟩
    | true =>
      have hrun := run_of_hadError 0 hreadable herror
      obtain ⟨n, k, hhead⟩ := head?_afterReading s source
      refine iff_of_false (not_executes hs hrun rfl fun line lexeme h => ?_) fun h => nomatch h.2
      cases hhead.symm.trans h
  · have hrun := run_of_unreadable 0 hs hreadable
    refine iff_of_false (not_executes hs hrun rfl fun line lexeme h => ?_) fun h => hreadable h.1
    cases h

end Session

end Lox
