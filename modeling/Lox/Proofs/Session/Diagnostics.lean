import Lox.Proofs.Execution.Nodes
import Lox.Proofs.Session.Limit
import Lox.Proofs.Token.Places

/-!
# Diagnostics refer to the source text

Whatever ran before in a session, the errors of a run are about the text that is run.  Errors of the
text and of the grammar are on one of its lines, and those of the grammar at a token that stands
there, or at the end (`placed_of_mem_errors`).  A runtime error arises at a node of a statement that
was read from the text, and so at one of its tokens (`placed_of_interpret`).

The lines that a run writes to report an error are the reports of such errors.  A run reports either
what is wrong with its text (`moments_of_unreadable`), or the runtime error that stopped its program
(`mem_moments`), and it sets a flag for nothing else.
-/

namespace Lox

open SharedList SharedList.Store Scopes

namespace Session

variable {source : String}

/-! ### Errors of the grammar -/

theorem endToken_scan (source : String) : Program.endToken (scan source).tokens =
    ⟨.eof, "", Piece.lineAfterEach 1 (Piece.split source.toList)⟩ := by
  have hwords : (Scan.words 1 (Piece.split source.toList)).find? Token.isEof = none := by
    rw [List.find?_eq_none]
    intro t ht
    rw [Scan.isEof_of_mem_words _ _ t ht]
    exact Bool.false_ne_true
  rw [Program.endToken, scan, Scan.tokens_ofPieces, List.find?_append, hwords]
  rfl

theorem found_of_mem_errors {e : GrammarError} (he : e ∈ (parse (scan source).tokens).errors) :
    e.found ∈ Scan.words 1 (Piece.split source.toList) ∨
      e.found = ⟨.eof, "", Piece.lineAfterEach 1 (Piece.split source.toList)⟩ := by
  obtain ⟨ss, rest, log, hprogram, -⟩ := exists_parse_eq (scan source).tokens
  have herrors : (parse (scan source).tokens).errors =
      log.map (Failure.toError (Program.endToken (scan source).tokens)) := by
    simp only [parse, hprogram]
  rw [herrors, List.mem_map] at he
  obtain ⟨x, hx, rfl⟩ := he
  rw [Scan.body_scan] at hprogram
  cases hfound : x.found with
  | none =>
    refine .inr ?_
    rw [Failure.toError, hfound]
    exact endToken_scan source
  | some t =>
    refine .inl ?_
    rw [Failure.toError, hfound]
    exact Parser.mem_of_mem_log_program hprogram hx hfound

/-- A grammar error is reported at the end of the input, on the last line, or at a token that
stands in the text, on its line. -/
def Placed (source : String) (e : GrammarError) : Prop :=
  e.location.text = " at end" ∧ e.line.toInt = (1 + source.toList.count '\n' : Nat) ∨
    ∃ t ∈ (scan source).tokens, t.Stands source.toList ∧
      e.location.text = " at '" ++ t.lexeme ++ "'" ∧ e.line = t.line

/-- A runtime error has the line and the lexeme of a token that stands in the text.  It is the name
of a variable or an assignment that was read from the text, and the message says so, or an operator
before an operand or between two, and the message says something else. -/
def PlacedAtNode (source : String) (e : RuntimeError) : Prop :=
  ∃ t ∈ (scan source).tokens, t.Stands source.toList ∧ e.line = t.line ∧ e.lexeme = t.lexeme ∧
    ∃ s ∈ statements source, ∃ n ∈ s.nodes,
      n.NamedBy t ∧ e.message = "Undefined variable '" ++ t.lexeme ++ "'." ∨
        n.OperatedBy t ∧ ∀ name, e.message ≠ "Undefined variable '" ++ name ++ "'."

section

variable (hlines : source.toList.count '\n' < 2147483647)

include hlines

/-- **A grammar error is reported at a token of the text, or at its end.** -/
theorem placed_of_mem_errors {e : GrammarError} (he : e ∈ (parse (scan source).tokens).errors) :
    OnLine source.toList e.line ∧ Placed source e := by
  obtain hfound | hfound := found_of_mem_errors he
  · have hstands := Scan.stands_of_mem_words hlines hfound
    have hmem : e.found ∈ (scan source).tokens := by
      rw [scan, Scan.tokens_ofPieces]
      exact List.mem_append_left _ hfound
    refine ⟨hstands.onLine, .inr ⟨e.found, hmem, hstands, ?_, rfl⟩⟩
    rw [GrammarError.location, Location.ofToken, Scan.isEof_of_mem_words _ _ _ hfound]
    rfl
  · have hline : e.line.toInt = (1 + source.toList.count '\n' : Nat) := by
      rw [GrammarError.line, hfound]
      exact Scan.toInt_endLine hlines
    refine ⟨⟨by omega, by omega⟩, .inl ⟨?_, hline⟩⟩
    rw [GrammarError.location, hfound]
    rfl

/-- **A runtime error arises at a token of the text that is run,** whatever the machine. -/
theorem placed_of_interpret {bound : Nat} {globals : Environment} {m m' : Machine}
    {e : RuntimeError}
    (h : interpret bound globals (statements source) m = .error (.fault e) m') :
    OnLine source.toList e.line ∧ PlacedAtNode source e := by
  have hraise : Stmt.MayRaiseEach (statements source) e :=
    stops_interpret bound globals (statements source) m (.fault e) m' h
  have hshaped : ∀ st ∈ statements source, st.Shaped := fun st => shaped_of_mem_parse
  obtain ⟨st, hst, n, hn, harises⟩ :=
    Stmt.exists_node_of_each _ (Stmt.shapedEach_iff.mpr hshaped) hraise
  have hmem : e.token ∈ (scan source).tokens :=
    mem_of_mem_parse hst (st.mem_tokens_of_mem_nodes hn harises.mem_tokens)
  have hstands := Scan.stands_of_mem_tokens hlines hmem
  refine ⟨hstands.onLine, e.token, hmem, hstands, rfl, rfl, st, hst, n, hn, ?_⟩
  obtain ⟨hfault, hnamed⟩ | ⟨hfault, hoperated⟩ := harises
  · refine .inl ⟨hnamed, ?_⟩
    rw [RuntimeError.message, hfault]
    rfl
  · exact .inr ⟨hoperated, RuntimeError.message_ne_message hfault (.inr rfl)⟩

end

/-! ### What is reported -/

theorem mem_momentsOfLines {p : Purpose} {lines : List String} {s : Session} {w : Purpose × Moment}
    (h : w ∈ momentsOfLines p lines s) : w.1 = p ∧ w.2.text ∈ lines := by
  obtain ⟨line, hline, rfl⟩ := List.mem_map.mp h
  exact ⟨rfl, hline⟩

/-- The line reports an error of the text or of the grammar. -/
def ReportsReading (source : String) (line : String) : Prop :=
  (∃ e ∈ (scan source).errors, line = e.report) ∨
    ∃ e ∈ (parse (scan source).tokens).errors, line = e.report

theorem reportsReading_of_mem {s : Session} {w : Purpose × Moment}
    (h : w ∈ momentsOfReport (scan source) (parse (scan source).tokens) s) :
    w.1 = .report ∧ ReportsReading source w.2.text := by
  rcases List.mem_append.mp h with h | h
  · obtain ⟨hp, hline⟩ := mem_momentsOfLines h
    obtain ⟨e, he, hreport⟩ := List.mem_map.mp hline
    exact ⟨hp, .inl ⟨e, he, hreport.symm⟩⟩
  · obtain ⟨_, s', -, h⟩ := mem_after h
    obtain ⟨hp, hline⟩ := mem_momentsOfLines h
    obtain ⟨e, he, hreport⟩ := List.mem_map.mp hline
    exact ⟨hp, .inr ⟨e, he, hreport.symm⟩⟩

theorem exists_mem_momentsOfReport (h : ¬Readable source) (s : Session) :
    ∃ w, w ∈ momentsOfReport (scan source) (parse (scan source).tokens) s := by
  cases hlexical : (scan source).errors with
  | cons e es => exact ⟨_, List.mem_append_left _ (by rw [hlexical]; exact List.mem_cons_self)⟩
  | nil =>
    cases hgrammatical : (parse (scan source).tokens).errors with
    | nil => exact absurd ⟨hlexical, hgrammatical⟩ h
    | cons e es =>
      have hwrite : writeLines ((scan source).errors.map LexicalError.report) s = .ok () s := by
        rw [hlexical]
        rfl
      refine ⟨(.report, ⟨e.report, s.machine.scopes⟩), List.mem_append_right _ ?_⟩
      rw [after_of_ok _ hwrite, hgrammatical]
      exact List.mem_cons_self

section

variable (bound : Nat) (s : Session)

theorem moments_of_unreadable (h : ¬Readable source) : moments bound source s =
    momentsOfReport (scan source) (parse (scan source).tokens) (s.afterReading source) := by
  have hnone : after (report (scan source) (parse (scan source).tokens))
      (fun _ => momentsOfProceeding bound (statements source)) (s.afterReading source) = [] := by
    refine List.eq_nil_iff_forall_not_mem.mpr fun w hw => ?_
    obtain ⟨_, s', hreport, hw⟩ := mem_after hw
    rw [momentsOfProceeding, if_pos (hadError_of_report h hreport)] at hw
    cases hw
  rw [moments_eq, hnone, List.append_nil]

theorem moments_of_readable (h : Readable source) : moments bound source s =
    momentsOfProceeding bound (statements source) (s.afterReading source) := by
  have hnone : momentsOfReport (scan source) (parse (scan source).tokens) (s.afterReading source) =
      [] := by
    rw [momentsOfReport, h.lexical, h.grammatical]
    rfl
  rw [moments_eq, hnone, after_of_ok _ (report_of_readable h _)]
  rfl

end

/-! ### Runtime errors -/

section

variable (bound : Nat) (program : List Stmt) (s : Session)

/-- A program raises a runtime error, and that is reported, or it does not, and no flag is set. -/
theorem execute_cases :
    (∃ e m, interpret bound s.globals program s.machine = .error (.fault e) m ∧
      execute bound program s = failWith e { s with machine := m }) ∨
    (∀ e m, interpret bound s.globals program s.machine ≠ .error (.fault e) m) ∧
      ∃ m, endOf (execute bound program s) = { s with machine := m } := by
  unfold execute
  cases hrun : interpret bound s.globals program s.machine with
  | ok a m =>
    rw [onMachine_of_ok hrun]
    exact .inr ⟨by simp, m, rfl⟩
  | error e m =>
    rw [onMachine_of_error hrun]
    cases e with
    | fault e => exact .inl ⟨e, m, rfl, rfl⟩
    | refused f => exact .inr ⟨by simp, m, rfl⟩
    | exhausted => exact .inr ⟨by simp, m, rfl⟩

@[simp]
theorem hadError_execute : (endOf (execute bound program s)).hadError = s.hadError := by
  obtain ⟨e, m, -, hrun⟩ | ⟨-, m, hend⟩ := execute_cases bound program s
  · rw [hrun]
    exact (onlyWrote_failWith e _).hadError_eq
  · rw [hend]

theorem runProgram_cases :
    (OnlyWrote s (endOf (runProgram bound program s)) ∧
      ∀ w ∈ momentsOfProceeding bound program s, w.1 = .dump) ∨
    ∃ s₁ dumps, OnlyWrote s s₁ ∧ runProgram bound program s = execute bound program s₁ ∧
      momentsOfProceeding bound program s = dumps ++ momentsOfExecution bound program s₁ ∧
      ∀ w ∈ dumps, w.1 = .dump := by
  unfold momentsOfProceeding
  cases herror : s.hadError with
  | true =>
    rw [runProgram_of_hadError bound program herror]
    exact .inl ⟨.refl s, fun _ h => nomatch h⟩
  | false =>
    rw [if_neg Bool.false_ne_true]
    cases hdumps : s.dumpsTrees with
    | false =>
      rw [runProgram_of_not_dumps bound program herror hdumps]
      exact .inr ⟨s, [], .refl s, rfl, rfl, fun _ h => nomatch h⟩
    | true =>
      have hwrote := stays_writeLines (Stmt.dumpEach program) s
      rw [if_pos rfl, runProgram_of_dumps bound program herror hdumps]
      cases hwrite : writeLines (Stmt.dumpEach program) s with
      | ok a s₁ =>
        rw [hwrite] at hwrote
        rw [after_of_ok _ hwrite, bind_of_ok _ hwrite]
        exact .inr ⟨s₁, _, hwrote, rfl, rfl, fun w hw => (mem_momentsOfLines hw).1⟩
      | error f s₁ =>
        rw [hwrite] at hwrote
        rw [after_of_error _ hwrite, bind_of_error _ hwrite, List.append_nil]
        exact .inl ⟨hwrote, fun w hw => (mem_momentsOfLines hw).1⟩

end

section

variable {bound : Nat} {program : List Stmt} {s : Session} {w : Purpose × Moment}

theorem mem_momentsOfExecution (h : w ∈ momentsOfExecution bound program s) : w.1 = .print ∨
    w.1 = .failure ∧ ∃ e m, interpret bound s.globals program s.machine = .error (.fault e) m ∧
      w.2.text = e.report := by
  rcases List.mem_append.mp h with h | h
  · obtain ⟨moment, -, rfl⟩ := List.mem_map.mp h
    exact .inl rfl
  · split at h
    · next e m hrun =>
      cases List.mem_singleton.mp h
      exact .inr ⟨rfl, e, m, hrun, rfl⟩
    · cases h

theorem exists_failure {e : RuntimeError} {m : Machine}
    (h : interpret bound s.globals program s.machine = .error (.fault e) m) :
    ∃ w ∈ momentsOfExecution bound program s, w.1 = .failure := by
  refine ⟨(.failure, ⟨e.report, m.scopes⟩), List.mem_append_right _ ?_, rfl⟩
  rw [h]
  exact List.mem_singleton_self _

/-- **The lines of a run,** by their purposes.  The report of a runtime error is that of the error
which stopped the program, and the last thing that the observer is told. -/
theorem mem_moments (h : w ∈ s.moments bound source) :
    (w.1 = .report ∧ ReportsReading source w.2.text) ∨ w.1 = .dump ∨ w.1 = .print ∨
      w.1 = .failure ∧ ∃ e m m',
        interpret bound s.globals (statements source) m = .error (.fault e) m' ∧
        w.2.text = e.report ∧ (endOf (run bound source s)).machine.events.head? =
          some (.runtimeError e.line e.lexeme) := by
  by_cases hsource : Readable source
  · refine .inr ?_
    rw [moments_of_readable bound s hsource] at h
    rw [run_eq_runProgram bound s hsource]
    obtain ⟨-, hdump⟩ | ⟨s₁, dumps, hwrote, hrun, hmoments, hdump⟩ :=
      runProgram_cases bound (statements source) (s.afterReading source)
    · exact .inl (hdump w h)
    rw [hmoments] at h
    rcases List.mem_append.mp h with h | h
    · exact .inl (hdump w h)
    refine .inr ((mem_momentsOfExecution h).imp_right fun ⟨hp, e, m, hm, htext⟩ => ?_)
    obtain ⟨e', m', hm', hexecute⟩ | ⟨hnot, -⟩ := execute_cases bound (statements source) s₁
    · cases hm.symm.trans hm'
      refine ⟨hp, e, s₁.machine, m, hwrote.globals_eq ▸ hm, htext, ?_⟩
      rw [hrun, hexecute, (onlyWrote_failWith e _).events_eq]
      rfl
    · exact absurd hm (hnot e m)
  · rw [moments_of_unreadable bound s hsource] at h
    exact .inl (reportsReading_of_mem h)

end

/-! ### Flags -/

section

variable {bound : Nat} {s : Session}

theorem exists_report_of_hadError (h : (endOf (run bound source s)).hadError = true) :
    s.hadError = true ∨ ∃ w ∈ s.moments bound source, w.1 = .report := by
  by_cases hsource : Readable source
  · refine .inl ?_
    rw [run_eq_runProgram bound s hsource] at h
    obtain ⟨hwrote, -⟩ | ⟨s₁, -, hwrote, hrun, -⟩ :=
      runProgram_cases bound (statements source) (s.afterReading source)
    · rwa [hwrote.hadError_eq, hadError_afterReading] at h
    · rwa [hrun, hadError_execute, hwrote.hadError_eq, hadError_afterReading] at h
  · rw [moments_of_unreadable bound s hsource]
    obtain ⟨w, hw⟩ := exists_mem_momentsOfReport hsource (s.afterReading source)
    exact .inr ⟨w, hw, (reportsReading_of_mem hw).1⟩

theorem exists_failure_of_hadRuntimeError
    (h : (endOf (run bound source s)).hadRuntimeError = true) :
    s.hadRuntimeError = true ∨ ∃ w ∈ s.moments bound source, w.1 = .failure := by
  by_cases hsource : Readable source
  · rw [run_eq_runProgram bound s hsource] at h
    rw [moments_of_readable bound s hsource]
    obtain ⟨hwrote, -⟩ | ⟨s₁, dumps, hwrote, hrun, hmoments, -⟩ :=
      runProgram_cases bound (statements source) (s.afterReading source)
    · rw [hwrote.hadRuntimeError_eq, hadRuntimeError_afterReading] at h
      exact .inl h
    obtain ⟨e, m, hm, -⟩ | ⟨-, m, hend⟩ := execute_cases bound (statements source) s₁
    · obtain ⟨w, hw, hfailure⟩ := exists_failure hm
      rw [hmoments]
      exact .inr ⟨w, List.mem_append_right _ hw, hfailure⟩
    · rw [hrun, hend] at h
      rw [← hadRuntimeError_afterReading s source, ← hwrote.hadRuntimeError_eq]
      exact .inl h
  · rw [(onlyReported_run bound s hsource).hadRuntimeError_eq] at h
    exact .inl h

end

/-- **Every diagnostic of a run refers to a place of the text that is run.**  Let the text have fewer
lines than can be counted, and run it in any session.  Every error of the text and of the grammar is
on a line of the text, and one of the grammar is reported at the end, on the last line, or at a token
on the line that this token ends on.  What the run writes to report errors are the reports of these,
and that of a runtime error with the line and lexeme of a token that names or operates a node of a
statement which was read from the text; only the message of an undefined variable names a variable:
the one at that token.  A flag is set for nothing else.  Over a sink that takes everything these
lines, with the dump and what the program prints, are what is written, and over one with room for
`n` bytes the first `n` bytes of them. -/
theorem diagnostics_placed (hlines : source.toList.count '\n' < 2147483647) (bound : Nat)
    (s : Session) :
    let s' := endOf (run bound source s)
    (∀ e ∈ (scan source).errors, OnLine source.toList e.line) ∧
      (∀ e ∈ (parse (scan source).tokens).errors, OnLine source.toList e.line ∧ Placed source e) ∧
      (∀ w ∈ s.moments bound source, w.1 = .report → ReportsReading source w.2.text) ∧
      (∀ w ∈ s.moments bound source, w.1 = .failure → ∃ e : RuntimeError, w.2.text = e.report ∧
        s'.machine.events.head? = some (.runtimeError e.line e.lexeme) ∧
        OnLine source.toList e.line ∧ PlacedAtNode source e) ∧
      (s'.hadError = true → s.hadError = true ∨ ∃ w ∈ s.moments bound source, w.1 = .report) ∧
      (s'.hadRuntimeError = true →
        s.hadRuntimeError = true ∨ ∃ w ∈ s.moments bound source, w.1 = .failure) ∧
      (s.machine.sink.Reliable → Held s.machine.scopes s.globals →
        s'.machine.sink.held =
          s.machine.sink.held ++ scene.written (s.moments bound source) ∧
        ∀ n, (endOf (run bound source (s.limited (s.machine.sink.held.size + n)))).machine.sink.held =
          s.machine.sink.held ++ (scene.written (s.moments bound source)).extract 0 n) := by
  intro s'
  refine ⟨fun e he => Scan.onLine_of_mem_errors hlines he,
    fun e he => placed_of_mem_errors hlines he, fun w hw hp => ?_, fun w hw hp => ?_,
    exists_report_of_hadError, exists_failure_of_hadRuntimeError, fun hsink hheld => ?_⟩
  · obtain ⟨-, hreport⟩ | hother | hother | ⟨hother, -⟩ := mem_moments hw
    · exact hreport
    all_goals cases hother.symm.trans hp
  · obtain ⟨hother, -⟩ | hother | hother | ⟨-, e, m, m', hm, htext, hevent⟩ := mem_moments hw
    · cases hother.symm.trans hp
    · cases hother.symm.trans hp
    · cases hother.symm.trans hp
    · exact ⟨e, htext, hevent, placed_of_interpret hlines hm⟩
  · have htracks := tracks_run ⟨hsink, hheld⟩ bound source
    exact ⟨htracks.held_eq, htracks.held_limited fun _ _ => rfl⟩

/-- A program that prints a value and then negates a string, which starts on the second line and ends
on the third; and a text with a stray character on its first line and a parenthesis on its second
that is never closed. -/
theorem diagnostics_placed_all_kinds :
    let source := "print nil;\n-\"x\ny\";"
    let unreadable := "@\n("
    let s := Session.start {} false
    source.toList.count '\n' < 2147483647 ∧ unreadable.toList.count '\n' < 2147483647 ∧
      (∃ s', run 1 source s = .ok () s' ∧ s'.hadRuntimeError = true ∧
        s'.machine.sink.held = "nil\nOperand must be a number.\n[line 2]\n".toUTF8) ∧
      (∃ w ∈ s.moments 1 source, w.1 = .failure ∧ ∃ e : RuntimeError, w.2.text = e.report ∧
        e.line = 2 ∧ e.lexeme = "-" ∧ OnLine source.toList e.line ∧ PlacedAtNode source e) ∧
      (∃ s', run 1 unreadable s = .ok () s' ∧ s'.hadError = true ∧ s'.machine.sink.held =
        "[line 1] Error: Unexpected character.\n[line 2] Error at end: Expect expression.\n".toUTF8) ∧
      (∃ x ∈ (scan unreadable).errors, x.line = 1 ∧ OnLine unreadable.toList x.line) ∧
      ∃ x ∈ (parse (scan unreadable).tokens).errors, x.line = 2 ∧
        OnLine unreadable.toList x.line ∧ Placed unreadable x := by
  intro source unreadable s
  have hlines : source.toList.count '\n' < 2147483647 := by decide +kernel
  have hlines' : unreadable.toList.count '\n' < 2147483647 := by decide +kernel
  have hrun : ∃ s', run 1 source s = .ok () s' ∧ s'.hadRuntimeError = true ∧
      s'.machine.sink.held = "nil\nOperand must be a number.\n[line 2]\n".toUTF8 ∧
      s'.machine.events.head? = some (.runtimeError 2 "-") := by decide +kernel
  have hrun' : ∃ s', run 1 unreadable s = .ok () s' ∧ s'.hadError = true ∧ s'.machine.sink.held =
      "[line 1] Error: Unexpected character.\n[line 2] Error at end: Expect expression.\n".toUTF8 := by
    decide +kernel
  have hlexical : (scan unreadable).errors = [⟨.unexpectedCharacter, 1⟩] := by decide +kernel
  have hgrammatical : (parse (scan unreadable).tokens).errors = [⟨.expression, ⟨.eof, "", 2⟩⟩] := by
    decide +kernel
  obtain ⟨s', hend, hflag, hheld, hevents⟩ := hrun
  obtain ⟨-, -, -, hfailures, -, hraised, -⟩ := diagnostics_placed hlines 1 s
  obtain ⟨hscan, hparse, -⟩ := diagnostics_placed hlines' 1 s
  rw [hend] at hfailures hraised
  obtain ⟨w, hw, hp⟩ := (hraised hflag).resolve_left Bool.false_ne_true
  obtain ⟨e, htext, hevent, honLine, hplaced⟩ := hfailures w hw hp
  obtain ⟨hline, hlexeme⟩ : e.line = 2 ∧ e.lexeme = "-" := by
    have hsame := hevent.symm.trans hevents
    simpa using hsame
  refine ⟨hlines, hlines', ⟨s', hend, hflag, hheld⟩, ⟨w, hw, hp, e, htext, hline, hlexeme, honLine,
    hplaced⟩, hrun', ⟨_, ?_, rfl, hscan ⟨.unexpectedCharacter, 1⟩ ?_⟩,
    ⟨_, ?_, rfl, hparse ⟨.expression, ⟨.eof, "", 2⟩⟩ ?_⟩⟩
  · exact hlexical ▸ List.mem_singleton_self _
  · exact hlexical ▸ List.mem_singleton_self _
  · exact hgrammatical ▸ List.mem_singleton_self _
  · exact hgrammatical ▸ List.mem_singleton_self _

end Session

end Lox
