import Lox.Proofs.Execution.Moments
import Lox.Proofs.Session.Runs

/-!
# Runs over a sink with a limit

The lines that a run writes are the reports of what is wrong with its source text, the dump of the
program, what the program prints, and the report of the runtime error that stopped it.  The moments
of a run are these lines in order, with the scopes at the time of each (`moments`).

A run over a sink with a limit does what it does without one up to the line that the limit falls
into, and nothing after it (`tracks_run`).  So the sink holds the first bytes of the whole output,
the global variables are those of that moment, and of the flags at most the one for runtime errors
has been set, which happens before the last report is written (`limited_run_is_cut_off`).
-/

namespace Lox

open SharedList SharedList.Store Scopes

/-- What a line is written for. -/
inductive Purpose where
  /-- To report what is wrong with the source text. -/
  | report
  /-- To dump the tree of a statement. -/
  | dump
  /-- To print a value. -/
  | print
  /-- To report the runtime error that stopped the program. -/
  | failure
deriving DecidableEq

namespace Session

/-! ### The moments of a run -/

/-- The moments of lines that are written one after the other. -/
def momentsOfLines (p : Purpose) (lines : List String) (s : Session) : List (Purpose × Moment) :=
  lines.map fun line => (p, ⟨line, s.machine.scopes⟩)

/-- The moments of reporting the errors of a source text. -/
def momentsOfReport (source : Scan) (program : Program) (s : Session) : List (Purpose × Moment) :=
  momentsOfLines .report (source.errors.map LexicalError.report) s ++
    after (writeLines (source.errors.map LexicalError.report))
      (fun _ => momentsOfLines .report (program.errors.map GrammarError.report)) s

/-- The moments of executing a program. -/
def momentsOfExecution (bound : Nat) (program : List Stmt) (s : Session) :
    List (Purpose × Moment) :=
  (momentsOfProgram bound s.globals program s.machine).map (Prod.mk .print) ++
    match interpret bound s.globals program s.machine with
    | .error (.fault e) m => [(.failure, ⟨e.report, m.scopes⟩)]
    | _ => []

/-- The moments of what a run does after its reports. -/
def momentsOfProceeding (bound : Nat) (program : List Stmt) (s : Session) :
    List (Purpose × Moment) :=
  if s.hadError then []
  else if s.dumpsTrees then
    momentsOfLines .dump (Stmt.dumpEach program) s ++
      after (writeLines (Stmt.dumpEach program)) (fun _ => momentsOfExecution bound program) s
  else momentsOfExecution bound program s

/-- The moments of a run. -/
def moments (bound : Nat) (source : String) : Session → List (Purpose × Moment) :=
  after (tell (Event.ofScan (scan source))) fun _ =>
    after (tell (Event.ofProgram (parse (scan source).tokens))) fun _ s =>
      momentsOfReport (scan source) (parse (scan source).tokens) s ++
        after (report (scan source) (parse (scan source).tokens))
          (fun _ => momentsOfProceeding bound (statements source)) s

/-! ### Sessions with a limit -/

/-- The session, with a sink that takes so many bytes and not more. -/
def limited (total : Nat) (s : Session) : Session := { s with machine := s.machine.limited total }

/-- The session was refused at a line.  Its global variables are those of that moment, and of the
flags only that for runtime errors may be set, if that line was to report one. -/
structure Refused (s : Session) (w : Purpose × Moment) (t : Session) : Prop where
  globals_eq : t.globals = s.globals
  scopes_eq : t.machine.scopes.toList s.globals = w.2.scopes.toList s.globals
  hadError_eq : t.hadError = s.hadError
  hadRuntimeError_eq : t.hadRuntimeError = (s.hadRuntimeError || w.1 == .failure)

/-- Sessions and the lines that are written. -/
def scene : Scene Session (Purpose × Moment) where
  held s := s.machine.sink.held
  limited := limited
  bytes w := (w.2.text ++ "\n").toUTF8
  Left := Refused

/-- The sink takes everything and the globals are held. -/
structure Usable (s : Session) : Prop where
  reliable : s.machine.sink.Reliable
  held : Held s.machine.scopes s.globals

theorem Usable.writing {s : Session} (h : s.Usable) (text : String) : (s.writing text).Usable :=
  ⟨reliable_writing h.reliable text, h.held⟩

/-! ### On the machine -/

theorem written_map (p : Purpose) (env : Environment) (ws : List Moment) :
    scene.written (ws.map (Prod.mk p)) = (Machine.scene env).written ws := by
  induction ws with
  | nil => rfl
  | cons w ws ih => exact congrArg ((w.text ++ "\n").toUTF8 ++ ·) ih

theorem fallsInto_map {p : Purpose} {env : Environment} {total : Nat} {held : ByteArray}
    {ws : List Moment} {w : Moment} (h : (Machine.scene env).FallsInto total held ws w) :
    scene.FallsInto total held (ws.map (Prod.mk p)) (p, w) := by
  obtain ⟨before, later, rfl, hle, hlt⟩ := h
  refine ⟨before.map (Prod.mk p), later.map (Prod.mk p), by rw [List.map_append, List.map_cons],
    ?_, ?_⟩
  · rwa [written_map p env]
  · rw [written_map p env]
    exact hlt

theorem tracks_onMachine {α : Type} {x : Environment → Run α} {s : Session} {ws : List Moment}
    (p : Purpose) (hp : p = .failure → s.hadRuntimeError = true)
    (h : (Machine.scene s.globals).Tracks (x s.globals) s.machine ws) :
    scene.Tracks (onMachine x) s (ws.map (Prod.mk p)) := by
  have hlimited : ∀ total, onMachine x (s.limited total) =
      mapState (fun m => { s with machine := m }) (x s.globals (s.machine.limited total)) :=
    fun total => onMachine_eq x (s.limited total)
  have hflag : s.hadRuntimeError = (s.hadRuntimeError || p == .failure) := by
    cases p with
    | failure => rw [hp rfl]; rfl
    | report | dump | print => exact (Bool.or_false _).symm
  refine ⟨?_, fun total hfit => ?_, fun total hle hlt => ?_⟩
  · rw [onMachine_eq, endOf_mapState, written_map p s.globals]
    exact h.held_eq
  · rw [written_map p s.globals] at hfit
    show onMachine x (s.limited total) = _
    rw [hlimited, onMachine_eq, show x s.globals (s.machine.limited total) = _ from
      h.fits total hfit, mapState_mapState, mapState_mapState]
    rfl
  · rw [written_map p s.globals] at hlt ⊢
    obtain ⟨w, t, hfalls, hstop, hheld, hleft⟩ := h.refused total hle hlt
    refine ⟨(p, w), { s with machine := t }, fallsInto_map hfalls, ?_, hheld, rfl, hleft, rfl, hflag⟩
    show onMachine x (s.limited total) = _
    rw [hlimited, show x s.globals (s.machine.limited total) = _ from hstop]
    rfl

theorem tracks_forM_writeLine (env : Environment) (lines : List String) :
    Run.Tracks env (lines.forM Run.writeLine) fun m => lines.map fun line => ⟨line, m.scopes⟩ := by
  induction lines with
  | nil => exact Run.tracks_pure ()
  | cons l lines ih =>
    intro m hm hheld
    have h : Run.TracksAt env (Run.writeLine l >>= fun _ => lines.forM Run.writeLine) m
        ([⟨l, m.scopes⟩] ++ after (Run.writeLine l)
          (fun _ m => lines.map fun line => ⟨line, m.scopes⟩) m) :=
      (Run.tracks_writeLine l).bind (Run.simulates_writeLine l) (fun _ => ih) m hm hheld
    rw [after_of_ok _ (m.writeLine_eq hm l)] at h
    exact h

theorem tracks_writeLines {s : Session} (hs : s.Usable) {p : Purpose}
    (hp : p = .failure → s.hadRuntimeError = true) (lines : List String) :
    scene.Tracks (writeLines lines) s (momentsOfLines p lines s) := by
  have h := tracks_onMachine (x := fun _ => lines.forM Run.writeLine) (s := s) p hp
    (tracks_forM_writeLine s.globals lines s.machine hs.reliable hs.held).tracks
  rwa [List.map_map] at h

theorem tracks_tell (events : List Event) (s : Session) : scene.Tracks (tell events) s [] := by
  refine Scene.tracks_nil ?_ fun total => ?_
  · rw [tell_eq]
    rfl
  · rw [tell_eq, tell_eq]
    rfl

/-! ### The stages of a run -/

theorem Refused.of_eq {s s₁ t : Session} {w : Purpose × Moment} (h : s₁.Refused w t)
    (hglobals : s₁.globals = s.globals) (herror : s₁.hadError = s.hadError)
    (hruntime : s₁.hadRuntimeError = s.hadRuntimeError) : s.Refused w t :=
  ⟨h.globals_eq.trans hglobals, hglobals ▸ h.scopes_eq, h.hadError_eq.trans herror,
    hruntime ▸ h.hadRuntimeError_eq⟩

theorem tracks_record (clear : Bool) (event : Event) (s : Session) :
    scene.Tracks (unless clear do
      tell [event]
      modify fun s => { s with hadError := true } : Step Unit) s [] := by
  cases clear with
  | true => exact Scene.tracks_nil rfl fun _ => rfl
  | false =>
    have hrun : ∀ s : Session, (do
        tell [event]
        modify fun s => { s with hadError := true } : Step Unit) s =
          .ok () { s.withEvents (event :: s.machine.events) with hadError := true } :=
      fun s => bind_of_ok _ (tell_eq [event] s)
    refine Scene.tracks_nil ?_ fun total => ?_
    · exact congrArg (fun r => scene.held (endOf r)) (hrun s)
    · exact (hrun _).trans (congrArg (mapState (scene.limited total)) (hrun s)).symm

/-- **Reports are written as far as the sink takes them,** and the flag is set after that. -/
theorem tracks_report {s : Session} (hs : s.Usable) (source : Scan) (program : Program) :
    scene.Tracks (report source program) s (momentsOfReport source program s) := by
  have hlexical := writeLines_eq hs.reliable (source.errors.map LexicalError.report)
  unfold report momentsOfReport
  rw [after_of_ok _ hlexical]
  refine (tracks_writeLines hs (p := .report) nofun _).bind_of_ok hlexical ?_
    fun w _ t h => h.of_eq rfl rfl rfl
  have hs' := hs.writing (textOf (source.errors.map LexicalError.report))
  rw [← List.append_nil (momentsOfLines _ (program.errors.map GrammarError.report) _)]
  refine (tracks_writeLines hs' (p := .report) nofun _).bind_of_ok
    (writeLines_eq hs'.reliable (program.errors.map GrammarError.report)) ?_ (List.forall_mem_nil _)
  exact tracks_record _ _ _

/-- The reports change nothing, or an error is on record after them. -/
theorem eq_or_recorded_of_report {source : String} {s s' : Session} {a : Unit} (hs : s.Usable)
    (h : report (scan source) (parse (scan source).tokens) s = .ok a s') :
    s' = s ∨ s'.hadError = true ∧ s'.Usable := by
  by_cases hreadable : Readable source
  · cases (report_of_readable hreadable s).symm.trans h
    exact .inl rfl
  · cases (report_of_unreadable hreadable hs.reliable).symm.trans h
    exact .inr ⟨rfl, (hs.writing _).reliable, hs.held⟩

/-- The flag is set before the report is written. -/
theorem tracks_failWith {s : Session} (hs : s.Usable) (e : RuntimeError) :
    scene.Tracks (failWith e) s [(.failure, ⟨e.report, s.machine.scopes⟩)] := by
  have hmodify : ∀ s : Session, scene.Tracks
      (modify fun s => { s with hadRuntimeError := true } : Step Unit) s [] :=
    fun s => Scene.tracks_nil rfl fun _ => rfl
  refine (tracks_tell _ s).bind_of_silent (tell_eq _ s) ?_ fun w _ t h => h.of_eq rfl rfl rfl
  refine (hmodify _).bind_of_silent rfl ?_ fun w hw t h => ?_
  · exact tracks_writeLines (p := .failure)
      (s := { s.withEvents (.runtimeError e.line e.lexeme :: s.machine.events) with
        hadRuntimeError := true }) ⟨hs.reliable, hs.held⟩ (fun _ => rfl) [e.report]
  cases List.mem_singleton.mp hw
  exact ⟨h.globals_eq, h.scopes_eq, h.hadError_eq, h.hadRuntimeError_eq.trans (Bool.or_true _).symm⟩

theorem tracks_execute {s : Session} (hs : s.Usable) (bound : Nat) (program : List Stmt) :
    scene.Tracks (execute bound program) s (momentsOfExecution bound program s) := by
  have hinterpret := tracks_interpret bound s.globals program s.machine hs.reliable hs.held
  have hmachine := tracks_onMachine (x := fun globals => interpret bound globals program) (s := s)
    .print nofun hinterpret.tracks
  unfold momentsOfExecution
  refine hmachine.goOn (K := finish) (fun _ => rfl) ?_ ?_
  · cases hrun : interpret bound s.globals program s.machine with
    | ok _ m =>
      rw [onMachine_of_ok hrun]
      exact Scene.tracks_nil rfl fun _ => rfl
    | error e m =>
      rw [onMachine_of_error hrun]
      cases e with
      | fault e =>
        have hframe := (simulates_interpret bound s.globals program).frame hs.held
        have hreliable := hinterpret.reliable
        rw [hrun] at hframe hreliable
        exact tracks_failWith (s := { s with machine := m }) ⟨hreliable, hs.held.frame hframe⟩ e
      | refused f => exact Scene.tracks_nil rfl fun _ => rfl
      | exhausted => exact Scene.tracks_nil rfl fun _ => rfl
  · intro w _ t h
    rw [onMachine_eq, endOf_mapState] at h
    exact h.of_eq rfl rfl rfl

theorem tracks_runProgram {s : Session} (hs : s.Usable) (bound : Nat) (program : List Stmt) :
    scene.Tracks (runProgram bound program) s (momentsOfProceeding bound program s) := by
  unfold momentsOfProceeding
  cases herror : s.hadError with
  | true =>
    refine Scene.tracks_nil ?_ fun total => ?_
    · rw [runProgram_of_hadError bound program herror]
      rfl
    · rw [runProgram_of_hadError bound program herror]
      exact runProgram_of_hadError bound program herror
  | false =>
    rw [if_neg Bool.false_ne_true]
    cases hdumps : s.dumpsTrees with
    | true =>
      have hwrite := writeLines_eq hs.reliable (Stmt.dumpEach program)
      rw [if_pos rfl, after_of_ok _ hwrite]
      have h := (tracks_writeLines hs (p := .dump) nofun _).bind_of_ok
        (f := fun _ => execute bound program) hwrite (tracks_execute (hs.writing _) bound program)
        fun w _ t h => h.of_eq rfl rfl rfl
      exact h.congr (runProgram_of_dumps bound program herror hdumps) fun total =>
        runProgram_of_dumps bound program (s := s.limited total) herror hdumps
    | false =>
      rw [if_neg Bool.false_ne_true]
      exact (tracks_execute hs bound program).congr
        (runProgram_of_not_dumps bound program herror hdumps) fun total =>
          runProgram_of_not_dumps bound program (s := s.limited total) herror hdumps

theorem moments_eq (bound : Nat) (source : String) (s : Session) : moments bound source s =
    momentsOfReport (scan source) (parse (scan source).tokens) (s.afterReading source) ++
      after (report (scan source) (parse (scan source).tokens))
        (fun _ => momentsOfProceeding bound (statements source)) (s.afterReading source) :=
  (after_of_ok _ (tell_eq _ s)).trans (after_of_ok _ (tell_eq _ _))

/-- **A run goes on as far as the sink takes what it writes.** -/
theorem tracks_run {s : Session} (hs : s.Usable) (bound : Nat) (source : String) :
    scene.Tracks (run bound source) s (moments bound source s) := by
  have hread : (s.afterReading source).Usable := ⟨hs.reliable, hs.held⟩
  rw [moments_eq]
  refine (tracks_tell _ s).bind_of_silent (tell_eq _ s) ?_ fun w _ t h => h.of_eq rfl rfl rfl
  refine (tracks_tell _ _).bind_of_silent (tell_eq _ _) ?_ fun w _ t h => h.of_eq rfl rfl rfl
  refine (tracks_report hread (scan source) (parse (scan source).tokens)).bind
    (fun _ s' hrun => ?_) fun _ s' hrun w hw t h => ?_
  · rcases eq_or_recorded_of_report hread hrun with rfl | ⟨-, hs'⟩
    · exact tracks_runProgram hread bound _
    · exact tracks_runProgram hs' bound _
  · rcases eq_or_recorded_of_report hread hrun with rfl | ⟨herror, -⟩
    · exact h
    · rw [momentsOfProceeding, if_pos herror] at hw
      cases hw

/-- **A run over a sink with a limit is cut off at the limit.**  Let a run end over a sink that takes
everything, and give the sink room for `n` bytes more.  Then the run writes the first `n` bytes of
all that it writes otherwise.  If that is all, it ends as it does otherwise.  If not, it is refused
at the line that the limit falls into: the global variables are those of that moment of the other
run, no error is put on record, and the flag for runtime errors is set only if that line was to
report one. -/
theorem limited_run_is_cut_off (bound : Nat) (source : String) {s s' : Session}
    (hsink : s.machine.sink.Reliable) (hheld : Held s.machine.scopes s.globals)
    (hrun : run bound source s = .ok () s') (n : Nat) :
    let output := scene.written (s.moments bound source)
    let cut := run bound source (s.limited (s.machine.sink.held.size + n))
    s'.machine.sink.held = s.machine.sink.held ++ output ∧
      (endOf cut).machine.sink.held = s.machine.sink.held ++ output.extract 0 n ∧
      (output.size ≤ n → cut = .ok () (s'.limited (s.machine.sink.held.size + n))) ∧
      (n < output.size → ∃ before w later t, s.moments bound source = before ++ w :: later ∧
        (scene.written before).size ≤ n ∧ n < (scene.written (before ++ [w])).size ∧
        cut = .error (.refused .full) t ∧ s.Refused w t) := by
  intro output cut
  have htracks := tracks_run ⟨hsink, hheld⟩ bound source
  have hsize : (s.machine.sink.held ++ output).size = s.machine.sink.held.size + output.size :=
    ByteArray.size_append
  refine ⟨?_, htracks.held_limited (fun _ _ => rfl) n, fun hle => ?_, fun hlt => ?_⟩
  · have hend := htracks.held_eq
    rw [hrun] at hend
    exact hend
  · have hlimited := htracks.fits (s.machine.sink.held.size + n)
      (hsize ▸ Nat.add_le_add_left hle _)
    rw [hrun] at hlimited
    exact hlimited
  · obtain ⟨w, t, ⟨before, later, hsplit, hle, hlt'⟩, hstop, -, hleft⟩ :=
      htracks.refused (s.machine.sink.held.size + n) (Nat.le_add_right _ _)
        (hsize ▸ Nat.add_lt_add_left hlt _)
    refine ⟨before, w, later, t, hsplit, ?_, ?_, hstop, hleft⟩
    · rw [ByteArray.size_append] at hle
      exact Nat.le_of_add_le_add_left hle
    · have hbytes : scene.written (before ++ [w]) = scene.written before ++ scene.bytes w := by
        rw [Scene.written_append, Scene.written_cons]
        exact congrArg (scene.written before ++ ·) ByteArray.append_empty
      rw [ByteArray.append_assoc, ByteArray.size_append, ← hbytes] at hlt'
      exact Nat.lt_of_add_lt_add_left hlt'

/-- A block prints two lines and the statement after it raises an error.  With room for five bytes
the second line does not fit. -/
theorem limited_run_is_cut_off_in_block :
    let source := "{print nil;print true;}print a;"
    let s := Session.start {} false
    s.machine.sink.Reliable ∧ Held s.machine.scopes s.globals ∧
      (∃ s', run 1 source s = .ok () s' ∧ s'.hadRuntimeError = true ∧ s'.machine.sink.held =
        "nil\ntrue\nUndefined variable 'a'.\n[line 1]\n".toUTF8) ∧
      (endOf (run 1 source (s.limited 5))).machine.sink.held = "nil\nt".toUTF8 ∧
      ∃ before w later t, s.moments 1 source = before ++ w :: later ∧
        (scene.written before).size ≤ 5 ∧ 5 < (scene.written (before ++ [w])).size ∧
        run 1 source (s.limited 5) = .error (.refused .full) t ∧ s.Refused w t := by
  intro source s
  have hsink : s.machine.sink.Reliable := ⟨rfl, rfl⟩
  have hheld : Held s.machine.scopes s.globals := ⟨0, ⟨{}, none, 1⟩, rfl, rfl, Nat.le_refl 1⟩
  have hends : ∃ s', run 1 source s = .ok () s' ∧ s'.hadRuntimeError = true ∧
      s'.machine.sink.held = "nil\ntrue\nUndefined variable 'a'.\n[line 1]\n".toUTF8 := by
    decide +kernel
  obtain ⟨s', hrun, hflag, hbytes⟩ := hends
  obtain ⟨hall, hcut, -, hrefused⟩ := limited_run_is_cut_off 1 source hsink hheld hrun 5
  have houtput : scene.written (s.moments 1 source) =
      "nil\ntrue\nUndefined variable 'a'.\n[line 1]\n".toUTF8 :=
    ByteArray.empty_append.symm.trans (hall.symm.trans hbytes)
  rw [houtput] at hcut hrefused
  exact ⟨hsink, hheld, ⟨s', hrun, hflag, hbytes⟩, hcut.trans (by decide +kernel),
    hrefused (by decide +kernel)⟩

end Session

end Lox
