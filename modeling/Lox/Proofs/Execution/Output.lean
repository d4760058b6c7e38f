import Lox.Execution
import Lox.Proofs.Lockstep
import Lox.Proofs.Stack.Sequence

/-!
# Execution and the sink

Execution looks at the sink only through writing and flushing.  So take a relation between sinks
that is kept when the same bytes are written to both, and when both are flushed: two machines with
the same scopes and with sinks in that relation run a program in lockstep, and end with the same
scopes and with sinks in that relation (`SinkRelation.respects_interpret`).  A run is refused only
as the sinks refuse, so never over sinks that take everything.  What the observers are told does not
matter.

A property of sinks that writing and flushing keep is such a relation, of every sink to itself
(`SinkRelation.keeping`).  So execution keeps it too, and a sink that takes everything does so to
the end (`reliable_interpret`); and a program that ends well has flushed it
(`flushes_lt_of_interpret`).
-/

namespace Lox

/-- A relation between sinks that writing and flushing keep. -/
structure SinkRelation where
  /-- The relation. -/
  Related : Sink → Sink → Prop
  /-- How the two refuse. -/
  Faults : SinkFault → SinkFault → Prop
  write : ∀ (bytes : ByteArray) {sink sink' : Sink}, Related sink sink' →
    Lockstep Eq Faults Related (Sink.write bytes sink) (Sink.write bytes sink')
  flush : ∀ {sink sink' : Sink}, Related sink sink' →
    Lockstep Eq Faults Related (Sink.flush sink) (Sink.flush sink')

namespace SinkRelation

variable (R : SinkRelation) {α β : Type}

/-- The machines have the same scopes, and sinks in the relation. -/
structure Machines (m m' : Machine) : Prop where
  scopes_eq : m.scopes = m'.scopes
  sinks : R.Related m.sink m'.sink

/-- How two runs stop early: alike, but for the way in which the sinks refuse. -/
inductive Stops : Stop → Stop → Prop
  | fault (e : RuntimeError) : Stops (.fault e) (.fault e)
  | refused {f f' : SinkFault} (h : R.Faults f f') : Stops (.refused f) (.refused f')
  | exhausted : Stops .exhausted .exhausted

/-- The computation runs in lockstep on machines with the same scopes. -/
def Respects (x : Run α) : Prop :=
  ∀ m m', R.Machines m m' → Lockstep Eq R.Stops R.Machines (x m) (x m')

variable {R}

theorem respects_pure (a : α) : R.Respects (Pure.pure a : Run α) := fun _ _ h => .pure rfl h

theorem Respects.bind {x : Run α} {f : α → Run β} (hx : R.Respects x)
    (hf : ∀ a, R.Respects (f a)) : R.Respects (x >>= f) := by
  intro m m' h
  refine (hx m m' h).bind fun a b n n' hab hn => ?_
  subst hab
  exact hf a n n' hn

theorem respects_eval (x : Eval α) : R.Respects (Run.eval x) := by
  rintro ⟨scopes, sink, events⟩ ⟨scopes', sink', events'⟩ ⟨hscopes, hsinks⟩
  obtain rfl : scopes = scopes' := hscopes
  unfold Run.eval
  dsimp only
  cases x scopes with
  | ok a scopes => exact .ok rfl ⟨rfl, hsinks⟩
  | error e scopes => exact .error (.fault e) ⟨rfl, hsinks⟩

/-- A computation on the sink that keeps the relation. -/
theorem respects_output {x : EStateM SinkFault Sink α}
    (hx : ∀ {sink sink' : Sink}, R.Related sink sink' →
      Lockstep Eq R.Faults R.Related (x sink) (x sink')) : R.Respects (Run.output x) := by
  rintro ⟨scopes, sink, events⟩ ⟨scopes', sink', events'⟩ ⟨hscopes, hsinks⟩
  unfold Run.output
  dsimp only
  match x sink, x sink', hx hsinks with
  | _, _, .ok hab hst => exact .ok hab ⟨hscopes, hst⟩
  | _, _, .error hed hst => exact .error (.refused hed) ⟨hscopes, hst⟩

theorem respects_writeLine (text : String) : R.Respects (Run.writeLine text) :=
  respects_output fun h => R.write _ h

theorem respects_changeScopes (f : Scopes → Scopes) : R.Respects (Run.changeScopes f) :=
  fun _ _ h => .ok rfl ⟨congrArg f h.scopes_eq, h.sinks⟩

theorem respects_enterBlock (env : Environment) : R.Respects (Run.enterBlock env) :=
  fun _ _ h => .ok rfl ⟨h.scopes_eq, h.sinks⟩

theorem respects_holding (env : Environment) {x : Run α} (hx : R.Respects x) :
    R.Respects (Run.holding env x) := by
  intro m m' h
  unfold Run.holding
  match x m, x m', hx m m' h with
  | _, _, .ok hab hn =>
    exact .ok hab ⟨congrArg (SharedList.Store.release · env) hn.scopes_eq, hn.sinks⟩
  | _, _, .error hed hn =>
    exact .error hed ⟨congrArg (SharedList.Store.release · env) hn.scopes_eq, hn.sinks⟩

theorem respects_inChild (env : Environment) {x : Environment → Run α}
    (hx : ∀ child, R.Respects (x child)) : R.Respects (Run.inChild env x) := by
  rintro ⟨scopes, sink, events⟩ ⟨scopes', sink', events'⟩ ⟨hscopes, hsinks⟩
  obtain rfl : scopes = scopes' := hscopes
  exact respects_holding _ (hx _) _ _ ⟨rfl, hsinks⟩

theorem respects_whileTrue {condition : Run Value} {body : Run Unit}
    (hcondition : R.Respects condition) (hbody : R.Respects body) (bound : Nat) :
    R.Respects (Run.whileTrue condition body bound) := by
  induction bound with
  | zero => exact fun _ _ h => .error .exhausted h
  | succ bound ih =>
    refine hcondition.bind fun v => ?_
    cases v.isTruthy with
    | true => exact hbody.bind fun _ => ih
    | false => exact respects_pure ()

mutual

/-- **A statement runs in lockstep on machines with the same scopes.** -/
theorem respects_exec (bound : Nat) (s : Stmt) (env : Environment) :
    R.Respects (s.exec bound env) := by
  cases s with
  | block body =>
    rw [Stmt.exec]
    exact respects_inChild env fun child =>
      (respects_enterBlock child).bind fun _ => respects_execEach bound body child
  | expr e =>
    rw [Stmt.exec]
    exact (respects_eval _).bind fun _ => respects_pure ()
  | print e =>
    rw [Stmt.exec]
    exact (respects_eval _).bind fun v => respects_writeLine v.text
  | declare t initial =>
    cases initial with
    | none =>
      rw [Stmt.exec]
      exact respects_changeScopes _
    | some e =>
      rw [Stmt.exec]
      exact (respects_eval _).bind fun v => respects_changeScopes _
  | ifThen c yes =>
    rw [Stmt.exec]
    refine (respects_eval _).bind fun v => ?_
    cases v.isTruthy with
    | true => exact respects_exec bound yes env
    | false => exact respects_pure ()
  | ifElse c yes no =>
    rw [Stmt.exec]
    refine (respects_eval _).bind fun v => ?_
    cases v.isTruthy with
    | true => exact respects_exec bound yes env
    | false => exact respects_exec bound no env
  | loop c body =>
    rw [Stmt.exec]
    exact respects_whileTrue (respects_eval _) (respects_exec bound body env) bound

theorem respects_execEach (bound : Nat) (ss : List Stmt) (env : Environment) :
    R.Respects (Stmt.execEach bound ss env) := by
  cases ss with
  | nil =>
    rw [Stmt.execEach]
    exact respects_pure ()
  | cons s ss =>
    rw [Stmt.execEach]
    exact (respects_exec bound s env).bind fun _ => respects_execEach bound ss env

end

/-- **A program runs in lockstep on machines with the same scopes.** -/
theorem respects_interpret (bound : Nat) (globals : Environment) (program : List Stmt) :
    R.Respects (interpret bound globals program) :=
  (respects_changeScopes _).bind fun _ => respects_holding globals
    ((respects_execEach bound program globals).bind fun _ => respects_output fun h => R.flush h)

/-! ### Properties of one sink -/

/-- A property of sinks that writing and flushing keep. -/
def keeping (P : Sink → Prop) (hwrite : ∀ bytes sink, P sink → P (endOf (Sink.write bytes sink)))
    (hflush : ∀ sink, P sink → P (endOf (Sink.flush sink))) : SinkRelation where
  Related sink sink' := sink = sink' ∧ P sink
  Faults := Eq
  write bytes sink sink' h := by
    obtain ⟨rfl, hsink⟩ := h
    have hend := hwrite bytes sink hsink
    cases hrun : Sink.write bytes sink with
    | ok a sink' => exact .ok rfl ⟨rfl, by rwa [hrun] at hend⟩
    | error f sink' => exact .error rfl ⟨rfl, by rwa [hrun] at hend⟩
  flush {sink sink'} h := by
    obtain ⟨rfl, hsink⟩ := h
    have hend := hflush sink hsink
    cases hrun : Sink.flush sink with
    | ok a sink' => exact .ok rfl ⟨rfl, by rwa [hrun] at hend⟩
    | error f sink' => exact .error rfl ⟨rfl, by rwa [hrun] at hend⟩

/-- The sink takes everything and was flushed at least so often. -/
def flushed (n : Nat) : SinkRelation :=
  keeping (fun sink => sink.Reliable ∧ n ≤ sink.flushes)
    (fun bytes sink h => by
      rw [h.1.write_eq]
      exact ⟨⟨h.1.limit_eq, h.1.failFlush_eq⟩, h.2⟩)
    (fun sink h => by
      rw [h.1.flush_eq]
      exact ⟨⟨h.1.limit_eq, h.1.failFlush_eq⟩, Nat.le_succ_of_le h.2⟩)

/-- However a computation ends, the sink still takes everything, and no flush was taken back. -/
theorem Respects.flushed {x : Run α} {m : Machine}
    (hx : (SinkRelation.flushed m.sink.flushes).Respects x) (hm : m.sink.Reliable) :
    (endOf (x m)).sink.Reliable ∧ m.sink.flushes ≤ (endOf (x m)).sink.flushes :=
  (hx m m ⟨rfl, rfl, hm, Nat.le_refl _⟩).endOf.sinks.2

end SinkRelation

section

variable {m m' : Machine} (bound : Nat) (globals : Environment) (program : List Stmt)

/-- **A program leaves a sink that takes everything as one that does.** -/
theorem reliable_interpret (hm : m.sink.Reliable) :
    (endOf (interpret bound globals program m)).sink.Reliable :=
  ((SinkRelation.respects_interpret bound globals program).flushed hm).1

variable {bound globals program}

/-- **A program that ends well has flushed the sink.** -/
theorem flushes_lt_of_interpret (hm : m.sink.Reliable)
    (hrun : interpret bound globals program m = .ok () m') : m.sink.flushes < m'.sink.flushes := by
  obtain ⟨_, m₁, hretain, hholding⟩ := exists_of_bind_ok hrun
  cases hretain
  unfold Run.holding at hholding
  cases hbody : (Stmt.execEach bound program globals >>= fun _ => Run.output Sink.flush)
      ⟨m.scopes.retain globals, m.sink, m.events⟩ with
  | error e m₂ =>
    rw [hbody] at hholding
    cases hholding
  | ok a m₂ =>
    rw [hbody] at hholding
    cases hholding
    obtain ⟨_, m₃, hexec, hflush⟩ := exists_of_bind_ok hbody
    obtain ⟨hr, hle⟩ : m₃.sink.Reliable ∧ m.sink.flushes ≤ m₃.sink.flushes := by
      have hkept := (SinkRelation.respects_execEach bound program globals).flushed
        (m := ⟨m.scopes.retain globals, m.sink, m.events⟩) hm
      rwa [hexec] at hkept
    unfold Run.output at hflush
    simp only [hr.flush_eq] at hflush
    cases hflush
    exact Nat.lt_succ_of_le hle

end

end Lox
