import Lox.Proofs.Session.Runs
import Mathlib.Data.List.Forall2

/-!
# The history of a session

A session is used by running source texts and by resetting its flags, one after the other.  A text
that can not be read puts an error on record until the next reset (`Leads.hadError_iff`), and until
then nothing is executed.  A run that executes its program leaves the machine on which the program
ended, with the report of its runtime error (`Runs.executed`).  Runs that execute nothing are *idle*:
they write their own reports and leave the global variables alone (`Runs.of_idle`).

Two sessions with the same global variables go *alongside* each other: what is executed in the one
is executed alike in the other (`Alongside.exists_acts`), and an idle run does not part them.  So a
history without its idle runs is a history too, where every run writes what it wrote before, and it
ends with the same global variables (`Leads.exists_pruned`).
-/

namespace Lox

/-- The sinks take everything, and the same bytes were written to the one since it held `before` and
to the other since it held `before'`. -/
def SinkRelation.since (before before' : ByteArray) : SinkRelation where
  Related sink sink' := sink.Reliable ∧ sink'.Reliable ∧
    ∃ out, sink.held = before ++ out ∧ sink'.held = before' ++ out
  Faults _ _ := False
  write bytes sink sink' h := by
    obtain ⟨hr, hr', out, hout, hout'⟩ := h
    rw [hr.write_eq, hr'.write_eq]
    refine .ok rfl ⟨⟨hr.limit_eq, hr.failFlush_eq⟩, ⟨hr'.limit_eq, hr'.failFlush_eq⟩,
      out ++ bytes, ?_, ?_⟩
    · rw [hout, ByteArray.append_assoc]
    · rw [hout', ByteArray.append_assoc]
  flush {sink sink'} h := by
    obtain ⟨hr, hr', hheld⟩ := h
    rw [hr.flush_eq, hr'.flush_eq]
    exact .ok rfl ⟨⟨hr.limit_eq, hr.failFlush_eq⟩, ⟨hr'.limit_eq, hr'.failFlush_eq⟩, hheld⟩

namespace Session

/-! ### Two sessions side by side -/

/-- The sessions have the same global variables and dump alike, and their sinks take everything. -/
structure Alongside (s t : Session) : Prop where
  same : SameGlobals s t
  dumpsTrees_eq : t.dumpsTrees = s.dumpsTrees
  reliable : s.machine.sink.Reliable
  reliable' : t.machine.sink.Reliable

theorem Alongside.refl {s : Session} (hr : s.machine.sink.Reliable) : s.Alongside s :=
  ⟨⟨rfl, rfl⟩, rfl, hr, hr⟩

/-- From `s` to `s'` the same bytes were written as from `t` to `t'`. -/
def SameOutput (s s' t t' : Session) : Prop :=
  ∃ out, s'.machine.sink.held = s.machine.sink.held ++ out ∧
    t'.machine.sink.held = t.machine.sink.held ++ out

section Executing

variable {source : String} {s t s' : Session}

theorem Alongside.machines (h : s.Alongside t) (source : String) :
    (SinkRelation.since s.machine.sink.held t.machine.sink.held).Machines
      (s.atProgram source).machine (t.atProgram source).machine := by
  have hdumped : t.dumped (statements source) = s.dumped (statements source) := by
    rw [dumped, dumped, h.dumpsTrees_eq]
  refine ⟨h.same.scopes_eq.symm, reliable_atProgram h.reliable source,
    reliable_atProgram h.reliable' source, (s.dumped (statements source)).toUTF8, rfl, ?_⟩
  rw [← hdumped]
  rfl

/-- What a program leaves that lets the run end well: the machine, or, after a runtime error, the
machine with the report. -/
theorem exists_of_ended {r : EStateM.Result Stop Machine Unit} (h : s.ended r = .ok () s') :
    ∃ m, (r = .ok () m ∧ s' = { s with machine := m }) ∨
      ∃ e, r = .error (.fault e) m ∧ s' = { s with
        machine := { m.writing (e.report ++ "\n") with
          events := .runtimeError e.line e.lexeme :: m.events }
        hadRuntimeError := true } := by
  cases r with
  | ok _ m =>
    cases h
    exact ⟨m, .inl ⟨rfl, rfl⟩⟩
  | error e m =>
    cases e with
    | fault e =>
      cases h
      exact ⟨m, .inr ⟨e, rfl, rfl⟩⟩
    | refused f => cases h
    | exhausted => cases h

/-- **A run that is executed in one session is executed alike in the other.** -/
theorem Alongside.exists_run (h : s.Alongside t) (hsource : Readable source)
    (hs : s.hadError = false) (ht : t.hadError = false) {bound : Nat}
    (hrun : run bound source s = .ok () s') : ∃ t', run bound source t = .ok () t' ∧
      s'.Alongside t' ∧ SameOutput s s' t t' ∧ s'.hadError = false ∧ t'.hadError = false := by
  have hlock := SinkRelation.respects_interpret bound s.globals (statements source) _ _
    (h.machines source)
  have hglobals : t.globals = s.globals := h.same.globals_eq
  rw [run_of_readable bound h.reliable hsource hs] at hrun
  rw [run_of_readable bound h.reliable' hsource ht, hglobals]
  obtain ⟨m, ⟨hm, rfl⟩ | ⟨e, hm, rfl⟩⟩ := exists_of_ended hrun
  · obtain ⟨_, m', hm', -, hmachines⟩ := hlock.exists_of_ok hm
    obtain ⟨hr, hr', hout⟩ := hmachines.sinks
    rw [hm']
    exact ⟨_, rfl, ⟨⟨hglobals, hmachines.scopes_eq.symm⟩, h.dumpsTrees_eq, hr, hr'⟩, hout, hs, ht⟩
  · obtain ⟨_, m', hm', ⟨⟩, hmachines⟩ := hlock.exists_of_error hm
    obtain ⟨hr, hr', out, hout, hout'⟩ := hmachines.sinks
    rw [hm']
    refine ⟨_, rfl, ⟨⟨hglobals, hmachines.scopes_eq.symm⟩, h.dumpsTrees_eq,
      ⟨hr.limit_eq, hr.failFlush_eq⟩, ⟨hr'.limit_eq, hr'.failFlush_eq⟩⟩,
      ⟨out ++ (e.report ++ "\n").toUTF8, ?_, ?_⟩, hs, ht⟩
    · rw [← ByteArray.append_assoc, ← hout]
      rfl
    · rw [← ByteArray.append_assoc, ← hout']
      rfl

/-- A program runs alike before and after the session has written its dump. -/
theorem lockstep_atProgram (hr : s.machine.sink.Reliable) (bound : Nat) :
    let R := SinkRelation.since s.machine.sink.held (s.atProgram source).machine.sink.held
    Lockstep Eq R.Stops R.Machines (interpret bound s.globals (statements source) s.machine)
      (interpret bound s.globals (statements source) (s.atProgram source).machine) :=
  SinkRelation.respects_interpret bound s.globals (statements source) _ _
    ⟨rfl, hr, reliable_atProgram hr source, .empty, by simp, by simp⟩

theorem raises_iff_atProgram (hr : s.machine.sink.Reliable) {e : RuntimeError} :
    s.Raises source e ↔ ∃ bound m, interpret bound s.globals (statements source)
      (s.atProgram source).machine = .error (.fault e) m := by
  constructor
  · rintro ⟨bound, m, hm⟩
    obtain ⟨_, m', hm', ⟨⟩, -⟩ := (lockstep_atProgram hr bound).exists_of_error hm
    exact ⟨bound, m', hm'⟩
  · rintro ⟨bound, m, hm⟩
    obtain ⟨_, m', hm', ⟨⟩, -⟩ := (lockstep_atProgram hr bound).symm.exists_of_error hm
    exact ⟨bound, m', hm'⟩

/-- The program of the source text comes to an end in the session. -/
def Halts (s : Session) (source : String) : Prop :=
  ∃ bound, ∀ m, interpret bound s.globals (statements source) s.machine ≠ .error .exhausted m

theorem exists_runs_of_halts (hr : s.machine.sink.Reliable) (hsource : Readable source)
    (hs : s.hadError = false) (hhalts : s.Halts source) : ∃ s', s.Runs source s' := by
  obtain ⟨bound, hbound⟩ := hhalts
  have hrun := run_of_readable bound hr hsource hs
  cases hi : interpret bound s.globals (statements source) s.machine with
  | ok _ m =>
    obtain ⟨_, m', hm', -, -⟩ := (lockstep_atProgram hr bound).exists_of_ok hi
    rw [hm'] at hrun
    exact ⟨_, bound, hrun⟩
  | error e m =>
    obtain ⟨_, m', hm', hstops, -⟩ := (lockstep_atProgram hr bound).exists_of_error hi
    rw [hm'] at hrun
    cases hstops with
    | fault e => exact ⟨_, bound, hrun⟩
    | refused h => exact h.elim
    | exhausted => exact absurd hi (hbound m)

theorem hadRuntimeError_of_run (hr : s.machine.sink.Reliable) (hsource : Readable source)
    (hs : s.hadError = false) {bound : Nat} (hrun : run bound source s = .ok () s') :
    s'.hadRuntimeError = true ↔ s.hadRuntimeError = true ∨ ∃ e, s.Raises source e := by
  rw [run_of_readable bound hr hsource hs] at hrun
  obtain ⟨m, ⟨hm, rfl⟩ | ⟨e, hm, rfl⟩⟩ := exists_of_ended hrun
  · have hnot : ¬∃ e, s.Raises source e := by
      rintro ⟨e, he⟩
      obtain ⟨bound', m', hm'⟩ := (raises_iff_atProgram hr).mp he
      have hsame := eq_of_persists
        (fun hle => persists_interpret hle s.globals (statements source)) hm hm' nofun nofun
      cases hsame
    exact (or_iff_left hnot).symm
  · exact iff_of_true rfl (.inr ⟨e, (raises_iff_atProgram hr).mpr ⟨bound, m, hm⟩⟩)

end Executing

/-! ### What one run does -/

/-- The statements of the source text were executed in `s`, and `s'` is left: with the machine on
which they ended, or, after a runtime error, with the report written to it and the flag set. -/
def Executed (s : Session) (source : String) (s' : Session) : Prop :=
  ∃ bound m,
    (interpret bound s.globals (statements source) (s.atProgram source).machine = .ok () m ∧
      s' = { s with machine := m }) ∨
    ∃ e, interpret bound s.globals (statements source) (s.atProgram source).machine =
        .error (.fault e) m ∧
      s' = { s with
        machine := { m.writing (e.report ++ "\n") with
          events := .runtimeError e.line e.lexeme :: m.events }
        hadRuntimeError := true }

section Runs

variable {source : String} {s s' : Session}

/-- **A run that executes its program leaves what the program leaves.** -/
theorem Runs.executed (h : s.Runs source s') (hexecutes : s.Executes source) :
    s.Executed source s' := by
  obtain ⟨bound, hrun⟩ := h
  rw [hexecutes bound] at hrun
  exact ⟨bound, exists_of_ended hrun⟩

/-- **A run that executes nothing writes its own reports,** and the record is all it changes. -/
theorem exists_run_eq_of_idle (hr : s.machine.sink.Reliable) (hidle : ¬s.Executes source)
    (bound : Nat) : ∃ events, run bound source s =
      .ok () { (s.writing (complaints source)).withEvents events with hadError := true } := by
  by_cases hsource : Readable source
  · have herror : s.hadError = true :=
      Bool.not_eq_false _ ▸ fun hs => hidle ((executes_iff hr).mpr ⟨hsource, hs⟩)
    refine ⟨(s.afterReading source).machine.events, ?_⟩
    rw [run_of_hadError bound hsource herror, complaints_of_readable hsource, writing_empty]
    obtain ⟨globals, machine, hadError, hadRuntimeError, dumpsTrees⟩ := s
    obtain rfl : hadError = true := herror
    rfl
  · exact ⟨_, run_of_unreadable bound hr hsource⟩

theorem Runs.of_idle (hr : s.machine.sink.Reliable) (h : s.Runs source s')
    (hidle : ¬s.Executes source) : ∃ events,
      s' = { (s.writing (complaints source)).withEvents events with hadError := true } := by
  obtain ⟨bound, hrun⟩ := h
  obtain ⟨events, hrun'⟩ := exists_run_eq_of_idle hr hidle bound
  rw [hrun'] at hrun
  cases hrun
  exact ⟨events, rfl⟩

theorem exists_runs (hr : s.machine.sink.Reliable) (h : s.Executes source → s.Halts source) :
    ∃ s', s.Runs source s' := by
  by_cases hexecutes : s.Executes source
  · obtain ⟨hsource, hs⟩ := (executes_iff hr).mp hexecutes
    exact exists_runs_of_halts hr hsource hs (h hexecutes)
  · obtain ⟨events, hrun⟩ := exists_run_eq_of_idle hr hexecutes 0
    exact ⟨_, 0, hrun⟩

theorem Runs.reliable (hr : s.machine.sink.Reliable) (h : s.Runs source s') :
    s'.machine.sink.Reliable := by
  by_cases hexecutes : s.Executes source
  · obtain ⟨hsource, hs⟩ := (executes_iff hr).mp hexecutes
    obtain ⟨bound, hrun⟩ := h
    obtain ⟨_, -, halong, -⟩ := (Alongside.refl hr).exists_run hsource hs hs hrun
    exact halong.reliable
  · obtain ⟨events, rfl⟩ := h.of_idle hr hexecutes
    exact reliable_writing hr _

theorem Runs.hadError_iff (hr : s.machine.sink.Reliable) (h : s.Runs source s') :
    s'.hadError = true ↔ s.hadError = true ∨ ¬Readable source := by
  by_cases hexecutes : s.Executes source
  · obtain ⟨hsource, hs⟩ := (executes_iff hr).mp hexecutes
    obtain ⟨bound, hrun⟩ := h
    obtain ⟨_, -, -, -, hs', -⟩ := (Alongside.refl hr).exists_run hsource hs hs hrun
    simp [hs, hs', hsource]
  · obtain ⟨events, rfl⟩ := h.of_idle hr hexecutes
    refine iff_of_true rfl ?_
    by_contra hnot
    rw [not_or, not_not, Bool.not_eq_true] at hnot
    exact hexecutes ((executes_iff hr).mpr ⟨hnot.2, hnot.1⟩)

theorem Runs.hadRuntimeError_iff (hr : s.machine.sink.Reliable) (h : s.Runs source s') :
    s'.hadRuntimeError = true ↔
      s.hadRuntimeError = true ∨ s.Executes source ∧ ∃ e, s.Raises source e := by
  by_cases hexecutes : s.Executes source
  · obtain ⟨hsource, hs⟩ := (executes_iff hr).mp hexecutes
    obtain ⟨bound, hrun⟩ := h
    rw [hadRuntimeError_of_run hr hsource hs hrun, and_iff_right hexecutes]
  · obtain ⟨events, rfl⟩ := h.of_idle hr hexecutes
    simp only [hexecutes, false_and, or_false]
    rfl

end Runs

/-! ### Histories -/

/-- What is done with a session. -/
inductive Action where
  | run (source : String)
  | reset
deriving DecidableEq

/-- The action takes the session to another one. -/
inductive Acts : Session → Action → Session → Prop
  | run {s s' : Session} {source : String} (h : s.Runs source s') : Acts s (.run source) s'
  | reset (s : Session) : Acts s .reset s.resetErrors

/-- One action, and the session before and after it. -/
structure Turn where
  before : Session
  action : Action
  after : Session

namespace Turn

/-- A text is run that can not be read. -/
def Malformed (t : Turn) : Prop := ∃ source, t.action = .run source ∧ ¬Readable source

/-- A program is executed and raises a runtime error. -/
def Raised (t : Turn) : Prop :=
  ∃ source, t.action = .run source ∧ t.before.Executes source ∧ ∃ e, t.before.Raises source e

/-- A text is run, but nothing is executed. -/
def Idle (t : Turn) : Prop := ∃ source, t.action = .run source ∧ ¬t.before.Executes source

/-- The same action, and the same bytes written. -/
structure Alike (t t' : Turn) : Prop where
  action_eq : t'.action = t.action
  output : SameOutput t.before t.after t'.before t'.after

end Turn

/-- The turns lead from the session to another one, in this order. -/
inductive Leads (s : Session) : List Turn → Session → Prop
  | start : Leads s [] s
  | snoc {turns : List Turn} {t : Turn} (h : Leads s turns t.before)
      (ht : Acts t.before t.action t.after) : Leads s (turns ++ [t]) t.after

/-- The turns since the last reset, the last one first. -/
def sinceReset (turns : List Turn) : List Turn :=
  turns.reverse.takeWhile fun t => t.action ≠ .reset

open scoped Classical in
/-- The turns but for the idle runs. -/
noncomputable def remaining (turns : List Turn) : List Turn := turns.filter fun t => ¬t.Idle

section

variable {s s' t : Session} {action : Action}

theorem Acts.unique {s₁ s₂ : Session} (h₁ : Acts s action s₁) (h₂ : Acts s action s₂) :
    s₁ = s₂ := by
  cases h₁ with
  | run hrun₁ =>
    cases h₂ with
    | run hrun₂ => exact hrun₁.unique hrun₂
  | reset =>
    cases h₂ with
    | reset => rfl

theorem Acts.reliable (h : Acts s action s') (hr : s.machine.sink.Reliable) :
    s'.machine.sink.Reliable := by
  cases h with
  | run hrun => exact hrun.reliable hr
  | reset => exact hr

theorem Alongside.of_idle (h : s.Alongside t) {source : String} (hrun : s.Runs source s')
    (hidle : ¬s.Executes source) : s'.Alongside t := by
  obtain ⟨events, rfl⟩ := hrun.of_idle h.reliable hidle
  exact ⟨⟨h.same.globals_eq, h.same.scopes_eq⟩, h.dumpsTrees_eq, reliable_writing h.reliable _,
    h.reliable'⟩

theorem Alongside.exists_acts (h : s.Alongside t) (ht : t.hadError = false)
    (hacts : Acts s action s') (hidle : ¬Turn.Idle ⟨s, action, s'⟩) :
    ∃ t', Acts t action t' ∧ s'.Alongside t' ∧ SameOutput s s' t t' ∧ t'.hadError = false := by
  cases hacts with
  | @run _ source hrun =>
    have hexecutes : s.Executes source := by
      by_contra hnot
      exact hidle ⟨source, rfl, hnot⟩
    obtain ⟨hsource, hs⟩ := (executes_iff h.reliable).mp hexecutes
    obtain ⟨bound, hrun⟩ := hrun
    obtain ⟨t', hrun', halong, hout, -, ht'⟩ := h.exists_run hsource hs ht hrun
    exact ⟨t', .run ⟨bound, hrun'⟩, halong, hout, ht'⟩
  | reset =>
    refine ⟨t.resetErrors, .reset t, ⟨⟨h.same.globals_eq, h.same.scopes_eq⟩, h.dumpsTrees_eq,
      h.reliable, h.reliable'⟩, ⟨.empty, ?_, ?_⟩, rfl⟩
    · exact (ByteArray.append_empty).symm
    · exact (ByteArray.append_empty).symm

end

theorem map_action_of_alike {turns kept : List Turn} (h : List.Forall₂ Turn.Alike turns kept) :
    kept.map Turn.action = turns.map Turn.action := by
  induction h with
  | nil => rfl
  | cons ht _ ih => rw [List.map_cons, List.map_cons, ht.action_eq, ih]

namespace Leads

variable {s final : Session} {turns : List Turn}

theorem reliable (h : Leads s turns final) (hr : s.machine.sink.Reliable) :
    final.machine.sink.Reliable := by
  induction h with
  | start => exact hr
  | snoc h ht ih => exact ht.reliable ih

theorem upTo (h : Leads s turns final) {earlier later : List Turn} {t : Turn}
    (hturns : turns = earlier ++ t :: later) :
    Leads s earlier t.before ∧ Acts t.before t.action t.after := by
  induction h generalizing later with
  | start => exact absurd hturns.symm (List.append_ne_nil_of_right_ne_nil _ (List.cons_ne_nil _ _))
  | @snoc turns u h hu ih =>
    rcases List.eq_nil_or_concat later with rfl | ⟨later, v, rfl⟩
    · obtain ⟨rfl, hlast⟩ := List.append_inj' hturns rfl
      cases hlast
      exact ⟨h, hu⟩
    · rw [List.concat_eq_append, ← List.cons_append, ← List.append_assoc] at hturns
      obtain ⟨hturns, -⟩ := List.append_inj' hturns rfl
      exact ih hturns

/-- **What is done with a session decides its history.** -/
theorem unique (h : Leads s turns final) {turns' : List Turn} {final' : Session}
    (h' : Leads s turns' final') (hactions : turns'.map Turn.action = turns.map Turn.action) :
    turns' = turns ∧ final' = final := by
  induction h generalizing turns' final' with
  | start =>
    cases h' with
    | start => exact ⟨rfl, rfl⟩
    | snoc h' ht' => simp at hactions
  | @snoc turns t h ht ih =>
    cases h' with
    | start => simp at hactions
    | @snoc turns' t' h' ht' =>
      rw [List.map_append, List.map_append] at hactions
      obtain ⟨hactions, hlast⟩ := List.append_inj' hactions rfl
      obtain ⟨rfl, hbefore⟩ := ih h' hactions
      obtain ⟨before, action, after⟩ := t
      obtain ⟨before', action', after'⟩ := t'
      obtain rfl : before' = before := hbefore
      obtain rfl : action' = action := List.head_eq_of_cons_eq hlast
      obtain rfl : after' = after := ht'.unique ht
      exact ⟨rfl, rfl⟩

/-- A flag that runs set and resets clear is set exactly if a turn since the last reset set it. -/
theorem flag_iff (h : Leads s turns final) (hr : s.machine.sink.Reliable) (flag : Session → Prop)
    {Sets : Turn → Prop} (hs : ¬flag s) (hreset : ∀ s₁ : Session, ¬flag s₁.resetErrors)
    (hrun : ∀ {s₁ s₂ : Session} {source : String}, s₁.machine.sink.Reliable → s₁.Runs source s₂ →
      (flag s₂ ↔ flag s₁ ∨ Sets ⟨s₁, .run source, s₂⟩)) :
    flag final ↔ ∃ t ∈ sinceReset turns, Sets t := by
  induction h with
  | start => exact iff_of_false hs fun ⟨_, ht, _⟩ => List.not_mem_nil ht
  | @snoc turns t h ht ih =>
    obtain ⟨before, action, after⟩ := t
    change Acts before action after at ht
    cases ht with
    | @run _ source ht =>
      have hsince : sinceReset (turns ++ [⟨before, .run source, after⟩]) =
          ⟨before, .run source, after⟩ :: sinceReset turns := by simp [sinceReset]
      rw [hrun (h.reliable hr) ht, ih, hsince, or_comm]
      simp only [List.mem_cons, exists_eq_or_imp]
    | reset =>
      have hsince : sinceReset (turns ++ [⟨before, .reset, before.resetErrors⟩]) = [] := by
        simp [sinceReset]
      rw [hsince]
      exact iff_of_false (hreset before) fun ⟨_, ht, _⟩ => List.not_mem_nil ht

theorem hadError_iff (h : Leads s turns final) (hr : s.machine.sink.Reliable)
    (hs : s.hadError = false) :
    final.hadError = true ↔ ∃ t ∈ sinceReset turns, t.Malformed := by
  refine h.flag_iff hr (fun s => s.hadError = true) (by simp [hs]) (fun _ => Bool.false_ne_true) ?_
  intro s₁ s₂ source hr₁ hrun
  rw [hrun.hadError_iff hr₁]
  simp [Turn.Malformed]

theorem hadRuntimeError_iff (h : Leads s turns final) (hr : s.machine.sink.Reliable)
    (hs : s.hadRuntimeError = false) :
    final.hadRuntimeError = true ↔ ∃ t ∈ sinceReset turns, t.Raised := by
  refine h.flag_iff hr (fun s => s.hadRuntimeError = true) (by simp [hs])
    (fun _ => Bool.false_ne_true) ?_
  intro s₁ s₂ source hr₁ hrun
  rw [hrun.hadRuntimeError_iff hr₁]
  simp [Turn.Raised]

/-- **A history without its idle runs is a history too,** where every run writes what it wrote, and
it ends with the same global variables. -/
theorem exists_pruned (h : Leads s turns final) (hr : s.machine.sink.Reliable)
    (hs : s.hadError = false) : ∃ kept final', List.Forall₂ Turn.Alike (remaining turns) kept ∧
      Leads s kept final' ∧ final.Alongside final' ∧ final'.hadError = false := by
  induction h with
  | start => exact ⟨[], s, .nil, .start, .refl hr, hs⟩
  | @snoc turns t h ht ih =>
    obtain ⟨kept, final', hkept, hleads, halong, hclear⟩ := ih
    rw [remaining, List.filter_append]
    by_cases hidle : t.Idle
    · obtain ⟨source, haction, hnot⟩ := id hidle
      have hrun : t.before.Runs source t.after := by
        rw [haction] at ht
        cases ht with
        | run hrun => exact hrun
      rw [List.filter_cons_of_neg (by simpa using hidle), List.filter_nil, List.append_nil]
      exact ⟨kept, final', hkept, hleads, halong.of_idle hrun hnot, hclear⟩
    · obtain ⟨after', hacts, halong', hout, hclear'⟩ := halong.exists_acts hclear ht hidle
      rw [List.filter_cons_of_pos (by simpa using hidle), List.filter_nil]
      exact ⟨kept ++ [⟨final', t.action, after'⟩], after',
        List.rel_append hkept (.cons ⟨rfl, hout⟩ .nil),
        .snoc (t := ⟨final', t.action, after'⟩) hleads hacts, halong', hclear'⟩

end Leads

/-- **Texts that can not be read do no harm, and stay on record until the next reset.**  In every
history over a sink that takes everything, each flag is set after a turn exactly if a turn since the
last reset set it.  A run executes the statements of its text exactly if the text can be read and no
error is on record.  It then leaves the machine on which they ended, and after a runtime error the
report and the flag; otherwise it writes its own reports and leaves the global variables alone.
Without the runs that execute nothing there is one history, where every run writes what it wrote, and
it ends with the same global variables.  Over any sink, a text that can not be read leaves them
alone. -/
theorem unreadable_inert_and_latched {s final : Session} {turns : List Turn}
    (hr : s.machine.sink.Reliable) (herror : s.hadError = false)
    (hruntime : s.hadRuntimeError = false) (h : Leads s turns final) :
    (∀ source : String, (final.Executes source → final.Halts source) →
      ∃ s', Leads s (turns ++ [⟨final, .run source, s'⟩]) s') ∧
    (∀ (earlier : List Turn) (t : Turn) (later : List Turn), turns = earlier ++ t :: later →
      (t.after.hadError = true ↔ ∃ u ∈ sinceReset (earlier ++ [t]), u.Malformed) ∧
      (t.after.hadRuntimeError = true ↔ ∃ u ∈ sinceReset (earlier ++ [t]), u.Raised) ∧
      ∀ source, t.action = .run source →
        (t.before.Executes source ↔ Readable source ∧ t.before.hadError = false) ∧
        (t.before.Executes source → t.before.Executed source t.after) ∧
        (¬t.before.Executes source → SameGlobals t.before t.after ∧
          t.after.machine.sink.held =
            t.before.machine.sink.held ++ (complaints source).toUTF8)) ∧
    (∃ kept final', Leads s kept final' ∧
      kept.map Turn.action = (remaining turns).map Turn.action) ∧
    (∀ kept final', Leads s kept final' →
      kept.map Turn.action = (remaining turns).map Turn.action →
        List.Forall₂ Turn.Alike (remaining turns) kept ∧ SameGlobals final final') ∧
    ∀ (bound : Nat) (source : String) (s₁ : Session), ¬Readable source →
      SameGlobals s₁ (endOf (run bound source s₁)) := by
  obtain ⟨kept, final', hkept, hleads, halong, -⟩ := h.exists_pruned hr herror
  have hactions := map_action_of_alike hkept
  refine ⟨?_, ?_, ⟨kept, final', hleads, hactions⟩, ?_, fun bound source s₁ hsource =>
    sameGlobals_run bound s₁ hsource⟩
  · intro source hhalts
    obtain ⟨s', hrun⟩ := exists_runs (h.reliable hr) hhalts
    exact ⟨s', .snoc (t := ⟨final, .run source, s'⟩) h (.run hrun)⟩
  · intro earlier t later hturns
    obtain ⟨hearlier, ht⟩ := h.upTo hturns
    have hupto : Leads s (earlier ++ [t]) t.after := .snoc hearlier ht
    refine ⟨hupto.hadError_iff hr herror, hupto.hadRuntimeError_iff hr hruntime, ?_⟩
    intro source haction
    have hbefore := hearlier.reliable hr
    rw [haction] at ht
    cases ht with
    | run hrun =>
      refine ⟨executes_iff hbefore, hrun.executed, fun hidle => ?_⟩
      obtain ⟨events, hafter⟩ := hrun.of_idle hbefore hidle
      rw [hafter]
      exact ⟨⟨rfl, rfl⟩, rfl⟩
  · intro kept₁ final₁ hleads₁ hactions₁
    obtain ⟨rfl, rfl⟩ := hleads.unique hleads₁ (hactions₁.trans hactions.symm)
    exact ⟨hkept, halong.same⟩

theorem unreadable_inert_and_latched_after_reset :
    let s := Session.start {} false
    s.machine.sink.Reliable ∧ s.hadError = false ∧ s.hadRuntimeError = false ∧
      ∃ (turns kept : List Turn) (final final' : Session), Leads s turns final ∧
        turns.map Turn.action = [.run "(", .run "-nil;", .reset, .run "-nil;"] ∧
        final.hadError = false ∧ final.hadRuntimeError = true ∧ Leads s kept final' ∧
        kept.map Turn.action = [.reset, .run "-nil;"] ∧ SameGlobals final final' ∧
        ∃ t ∈ turns, t.action = .run "-nil;" ∧ t.before.Executed "-nil;" t.after := by
  intro s
  have hr : s.machine.sink.Reliable := ⟨rfl, rfl⟩
  have hparen : ¬Readable "(" := fun h => absurd h.grammatical (by decide +kernel)
  have hminus : Readable "-nil;" := ⟨by decide +kernel, by decide +kernel⟩
  -- Two runs that execute nothing, a reset, and a run that raises a runtime error.
  have hruns : ∃ s₃, (do
      run 0 "("
      run 0 "-nil;"
      modify resetErrors
      run 1 "-nil;" : Step Unit) s = .ok () s₃ ∧
        s₃.hadError = false ∧ s₃.hadRuntimeError = true := by decide +kernel
  obtain ⟨s₃, hruns, herror₃, hruntime₃⟩ := hruns
  obtain ⟨_, s₁, hrun₁, hruns⟩ := exists_of_bind_ok hruns
  obtain ⟨_, s₂, hrun₂, hruns⟩ := exists_of_bind_ok hruns
  obtain ⟨_, _, ⟨⟩, hrun₃⟩ := exists_of_bind_ok hruns
  have hleads : Leads s [⟨s, .run "(", s₁⟩, ⟨s₁, .run "-nil;", s₂⟩, ⟨s₂, .reset, s₂.resetErrors⟩,
      ⟨s₂.resetErrors, .run "-nil;", s₃⟩] s₃ :=
    .snoc (t := ⟨_, _, s₃⟩) (.snoc (t := ⟨s₂, _, _⟩) (.snoc (t := ⟨s₁, _, s₂⟩)
      (.snoc (t := ⟨s, _, s₁⟩) .start (.run ⟨0, hrun₁⟩)) (.run ⟨0, hrun₂⟩)) (.reset s₂))
      (.run ⟨1, hrun₃⟩)
  obtain ⟨-, hturns, ⟨kept, final', hkept, hactions⟩, hpruned, -⟩ :=
    unreadable_inert_and_latched hr rfl rfl hleads
  obtain ⟨hrecorded, -, hfirst⟩ := hturns [] _ [_, _, _] rfl
  obtain ⟨-, -, hsecond⟩ := hturns [_] _ [_, _] rfl
  obtain ⟨-, -, hlast⟩ := hturns [_, _, _] _ [] rfl
  have herror₁ : s₁.hadError = true :=
    hrecorded.mpr ⟨_, List.mem_singleton_self _, "(", rfl, hparen⟩
  have hidle₁ : ¬s.Executes "(" := fun h => hparen ((hfirst _ rfl).1.mp h).1
  have hidle₂ : ¬s₁.Executes "-nil;" := fun h =>
    Bool.false_ne_true (((hsecond _ rfl).1.mp h).2.symm.trans herror₁)
  have hexecutes : s₂.resetErrors.Executes "-nil;" := (hlast _ rfl).1.mpr ⟨hminus, rfl⟩
  have hremaining : (remaining [⟨s, .run "(", s₁⟩, ⟨s₁, .run "-nil;", s₂⟩,
      ⟨s₂, .reset, s₂.resetErrors⟩, ⟨s₂.resetErrors, .run "-nil;", s₃⟩]).map Turn.action =
        [.reset, .run "-nil;"] := by
    simp [remaining, Turn.Idle, hidle₁, hidle₂, hexecutes]
  exact ⟨hr, rfl, rfl, _, kept, s₃, final', hleads, rfl, herror₃, hruntime₃, hkept,
    hactions.trans hremaining, (hpruned kept final' hkept hactions).2,
    ⟨s₂.resetErrors, .run "-nil;", s₃⟩, by simp, rfl, (hlast _ rfl).2.1 hexecutes⟩

end Session

end Lox
