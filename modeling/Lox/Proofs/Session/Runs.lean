import Lox.Proofs.Execution.Bound
import Lox.Proofs.Execution.Refinement
import Lox.Proofs.Session.Stages

/-!
# Runs of a session, on a stack

A session that has met no errors, dumps no trees and has a reliable sink executes every program that
can be read.  What such a run does is what the program does on the stack of the session's global
scopes, and if that raises a runtime error, the flag is set and the error is reported.

The bound on the rounds of loops does not matter to a run that ends (`Runs.unique`).
-/

namespace Lox

namespace Session

/-- The session executes what it reads, and nothing that it writes is refused. -/
structure Ready (s : Session) : Prop where
  hadError_eq : s.hadError = false
  dumpsTrees_eq : s.dumpsTrees = false
  reliable : s.machine.sink.Reliable
  held : Scopes.Held s.machine.scopes s.globals

/-- The global scopes and the sink of a session. -/
def view (s : Session) : Stack := s.machine.view s.globals

/-- What a run left of a session: the stack of its global scopes, and whether an error was raised.
-/
structure Leaves (s s' : Session) (t : Stack) (raised : Bool) : Prop where
  globals_eq : s'.globals = s.globals
  view_eq : s'.view = t
  held : Scopes.Held s'.machine.scopes s'.globals
  hadError_eq : s'.hadError = s.hadError
  hadRuntimeError_eq : s'.hadRuntimeError = (s.hadRuntimeError || raised)
  dumpsTrees_eq : s'.dumpsTrees = s.dumpsTrees

theorem Ready.atProgram_eq {s : Session} (hs : s.Ready) (source : String) :
    s.atProgram source = s.afterReading source := by
  rw [atProgram, dumped, hs.dumpsTrees_eq, if_neg Bool.false_ne_true, writing_empty]

/-- **What can be read is executed.** -/
theorem Ready.run_eq_ended {source : String} (hsource : Readable source) {s : Session}
    (hs : s.Ready) (bound : Nat) : run bound source s = (s.afterReading source).ended
      (interpret bound s.globals (statements source) (s.afterReading source).machine) := by
  rw [run_of_readable bound hs.reliable hsource hs.hadError_eq, hs.atProgram_eq]

/-! ### Bounds -/

section

variable {bound bound' : Nat}

theorem persists_execute (hle : bound ≤ bound') (program : List Stmt) :
    Persists (execute bound program) (execute bound' program) := by
  intro s
  unfold execute
  obtain ⟨m, hm⟩ | hm := persists_interpret hle s.globals program s.machine
  · rw [onMachine_of_error hm]
    exact .inl ⟨_, rfl⟩
  · have hmachine : onMachine (fun globals => interpret bound' globals program) s =
        onMachine (fun globals => interpret bound globals program) s := by
      unfold onMachine
      simp only [hm]
    rw [hmachine]
    exact .inr rfl

theorem persists_runProgram (hle : bound ≤ bound') (program : List Stmt) :
    Persists (runProgram bound program) (runProgram bound' program) := by
  refine (Persists.refl _).bind fun s => ?_
  cases s.hadError with
  | true => exact .refl _
  | false =>
    refine (Persists.refl _).bind fun s => ?_
    cases s.dumpsTrees with
    | true => exact (Persists.refl _).bind fun _ => persists_execute hle _
    | false => exact persists_execute hle _

/-- **A run that ends under a bound ends alike under every larger one.** -/
theorem persists_run (hle : bound ≤ bound') (source : String) :
    Persists (run bound source) (run bound' source) :=
  (Persists.refl _).bind fun _ => (Persists.refl _).bind fun _ =>
    (Persists.refl _).bind fun _ => persists_runProgram hle _

end

/-- Running the source text ends, and takes the session to another one. -/
def Runs (s : Session) (source : String) (s' : Session) : Prop :=
  ∃ bound, run bound source s = .ok () s'

/-- Running the source text in the session raises the runtime error. -/
def Raises (s : Session) (source : String) (e : RuntimeError) : Prop :=
  ∃ bound m, interpret bound s.globals (statements source) s.machine = .error (.fault e) m

/-- **A run has one end,** whatever bound its loops are given. -/
theorem Runs.unique {s s₁ s₂ : Session} {source : String} (h₁ : s.Runs source s₁)
    (h₂ : s.Runs source s₂) : s₁ = s₂ := by
  obtain ⟨bound₁, h₁⟩ := h₁
  obtain ⟨bound₂, h₂⟩ := h₂
  have h := eq_of_persists (fun hle => persists_run hle source) h₁ h₂ nofun nofun
  cases h
  rfl

/-! ### What a run leaves -/

/-- The stack after a line of text was written. -/
def written (t : Stack) (text : String) : Stack :=
  ⟨t.scopes, { t.sink with held := t.sink.held ++ (text ++ "\n").toUTF8 }⟩

section

variable {bound : Nat} {source : String} {s : Session} {t : Stack}

theorem interpret_lockstep (hs : s.Ready) (bound : Nat) (ss : List Stmt) (events : List Event) :
    Lockstep Eq Eq (fun m t => m.view s.globals = t ∧ Scopes.Held m.scopes s.globals)
      (interpret bound s.globals ss (s.withEvents events).machine)
      (Stack.interpret bound ss s.view) := by
  have h := simulates_interpret bound s.globals ss s.machine.scopes (s.withEvents events).machine
    s.view hs.held (Machine.mirrors_view s.globals _)
  exact h.mono fun m t hmt => ⟨hmt.view_eq, hs.held.frame hmt.1.frame⟩

theorem run_of_ok (hsource : Readable source) (hs : s.Ready)
    (h : Stack.interpret bound (statements source) s.view = .ok () t) :
    ∃ s', run bound source s = .ok () s' ∧ s.Leaves s' t false := by
  obtain ⟨_, m, hm, -, hview, hheld⟩ :=
    (interpret_lockstep hs bound (statements source) _).symm.exists_of_ok h
  rw [hs.run_eq_ended hsource, afterReading, hm]
  exact ⟨_, rfl, rfl, hview, hheld, rfl, (Bool.or_false _).symm, rfl⟩

/-- A program that raises a runtime error leaves its stack and a report, and sets the flag. -/
theorem run_of_fault (hsource : Readable source) (hs : s.Ready) {e : RuntimeError}
    (h : Stack.interpret bound (statements source) s.view = .error (.fault e) t) :
    ∃ s', run bound source s = .ok () s' ∧ s.Leaves s' (written t e.report) true := by
  obtain ⟨_, m, hm, he, hview, hheld⟩ :=
    (interpret_lockstep hs bound (statements source) _).symm.exists_of_error h
  rw [hs.run_eq_ended hsource, afterReading, hm, he, ← hview]
  exact ⟨_, rfl, rfl, rfl, hheld, rfl, (Bool.or_true _).symm, rfl⟩

theorem run_of_error (hsource : Readable source) (hs : s.Ready) {e : Stop} (he : ∀ f, e ≠ .fault f)
    (h : Stack.interpret bound (statements source) s.view = .error e t) :
    ∃ s', run bound source s = .error e s' := by
  obtain ⟨_, m, hm, hed, -⟩ :=
    (interpret_lockstep hs bound (statements source) _).symm.exists_of_error h
  rw [hs.run_eq_ended hsource, afterReading, hm, hed]
  cases e with
  | fault f => exact absurd rfl (he f)
  | refused f => exact ⟨_, rfl⟩
  | exhausted => exact ⟨_, rfl⟩

end

end Session

end Lox
