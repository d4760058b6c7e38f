import Lox.Proofs.Environment.Mirror
import Lox.Proofs.Lockstep

/-!
# Execution on shared scopes is execution on a stack

Executing in an environment of a store, and executing on the stack of its scopes, run in lockstep:
they end the same way, with the same error, the same sink, and with a store that mirrors the stack
(`simulates_exec`).  The store of the one is shared, counted and changed in place; the stack of the
other is handed on by value.
-/

namespace Lox

open SharedList SharedList.Store Scopes

/-- The scopes of an environment and the sink. -/
def Machine.view (env : Environment) (m : Machine) : Stack := ⟨m.scopes.toList env, m.sink⟩

/-- The machine mirrors the stack in the environment, since the store was `s₀`. -/
def Machine.Mirrors (env : Environment) (s₀ : Scopes) (m : Machine) (t : Stack) : Prop :=
  Scopes.Mirrors env s₀ m.scopes t.scopes ∧ m.sink = t.sink

/-! ### Expressions -/

/-- A computation on the store runs in lockstep with one on the stack. -/
def Eval.Simulates {α : Type} (env : Environment) (x : Eval α) (y : Stack.Eval α) : Prop :=
  ∀ s₀ s scopes, Scopes.Mirrors env s₀ s scopes →
    Lockstep Eq Eq (Scopes.Mirrors env s₀) (x s) (y scopes)

namespace Eval

variable {α β : Type} {env : Environment}

theorem Simulates.bind {x : Eval α} {y : Stack.Eval α} {f : α → Eval β} {g : α → Stack.Eval β}
    (hxy : Simulates env x y) (hfg : ∀ a, Simulates env (f a) (g a)) :
    Simulates env (x >>= f) (y >>= g) := by
  intro s₀ s scopes h
  refine (hxy s₀ s scopes h).bind fun a b s scopes hab h => ?_
  subst hab
  exact hfg a s₀ s scopes h

theorem simulates_pure (a : α) : Simulates env (pure a) (pure a) :=
  fun _ _ _ h => .pure rfl h

theorem simulates_ofExcept (r : Except RuntimeError α) :
    Simulates env (ofExcept r) (Stack.ofExcept r) := by
  intro s₀ s scopes h
  cases r with
  | ok a => exact .ok rfl h
  | error e => exact .error rfl h

theorem simulates_lookup (t : Token) : Simulates env (lookup env t) (Stack.lookup t) := by
  intro s₀ s scopes h
  unfold lookup Stack.lookup
  rw [lookup?_eq, h.scopes_eq]
  cases scopes.findSome? fun scope => scope[t.lexeme]? with
  | some v => exact .ok rfl h
  | none => exact .error rfl h

theorem simulates_assign (t : Token) (v : Value) :
    Simulates env (assign env t v) (Stack.assign t v) := by
  intro s₀ s scopes h
  unfold assign Stack.assign
  rw [← h.scopes_eq]
  obtain ⟨s', ⟨l, hl, hs, hm⟩ | ⟨hl, hs, hm⟩⟩ := mirrors_assign s env t.lexeme v
  · rw [hl, hs]
    exact .ok rfl (h.trans hm)
  · rw [hl, hs]
    exact .error rfl (h.trans hm)

/-- **Evaluation on shared scopes is evaluation on a stack.** -/
theorem simulates_eval (e : Expr) : Simulates env (e.eval env) (Stack.eval e) := by
  induction e with
  | literal v => exact simulates_pure v
  | grouping e ih => exact ih
  | name t => exact simulates_lookup t
  | assign t e ih => exact ih.bind fun v => (simulates_assign t v).bind fun _ => simulates_pure v
  | unary op e ih => exact ih.bind fun v => simulates_ofExcept _
  | binary l op r ihl ihr => exact ihl.bind fun x => ihr.bind fun y => simulates_ofExcept _
  | logical l op r ihl ihr =>
    refine ihl.bind fun v => (simulates_ofExcept _).bind fun b => ?_
    cases b with
    | true => exact simulates_pure v
    | false => exact ihr

end Eval

/-! ### Statements -/

/-- A computation on the machine runs in lockstep with one on the stack. -/
def Run.Simulates {α : Type} (env : Environment) (x : Run α) (y : Stack.Run α) : Prop :=
  ∀ s₀ m t, Held s₀ env → Machine.Mirrors env s₀ m t →
    Lockstep Eq Eq (Machine.Mirrors env s₀) (x m) (y t)

namespace Run

variable {α β : Type} {env : Environment}

theorem Simulates.bind {x : Run α} {y : Stack.Run α} {f : α → Run β} {g : α → Stack.Run β}
    (hxy : Simulates env x y) (hfg : ∀ a, Simulates env (f a) (g a)) :
    Simulates env (x >>= f) (y >>= g) := by
  intro s₀ m t hheld h
  refine (hxy s₀ m t hheld h).bind fun a b m t hab h => ?_
  subst hab
  exact hfg a s₀ m t hheld h

theorem simulates_pure (a : α) : Simulates env (pure a) (pure a) :=
  fun _ _ _ _ h => .pure rfl h

theorem simulates_eval {x : Eval α} {y : Stack.Eval α} (h : Eval.Simulates env x y) :
    Simulates env (eval x) (Stack.onScopes y) := by
  rintro s₀ ⟨scopes, sink, events⟩ ⟨scopes', sink'⟩ _ ⟨hm, rfl⟩
  have hxy := h s₀ scopes scopes' hm
  unfold eval Stack.onScopes
  simp only
  match x scopes, y scopes', hxy with
  | _, _, .ok hab hst => exact .ok hab ⟨hst, rfl⟩
  | _, _, .error hed hst => exact .error (by rw [hed]) ⟨hst, rfl⟩

theorem simulates_output (x : EStateM SinkFault Sink α) :
    Simulates env (output x) (Stack.onSink x) := by
  rintro s₀ ⟨scopes, sink, events⟩ ⟨scopes', sink'⟩ _ ⟨hm, rfl⟩
  unfold output Stack.onSink
  simp only
  cases x sink with
  | ok a sink => exact .ok rfl ⟨hm, rfl⟩
  | error f sink => exact .error rfl ⟨hm, rfl⟩

theorem simulates_writeLine (text : String) :
    Simulates env (writeLine text) (Stack.writeLine text) :=
  simulates_output _

theorem simulates_define (name : String) (v : Value) :
    Simulates env (changeScopes fun s => s.define env name v)
      (Stack.changeScopes (Stack.define name v)) := by
  rintro s₀ ⟨scopes, sink, events⟩ ⟨scopes', sink'⟩ hheld ⟨hm, rfl⟩
  have hd := mirrors_define (hheld.frame hm.frame) name v
  rw [hm.scopes_eq] at hd
  exact .ok rfl ⟨hm.trans hd, rfl⟩

/-- **A block in a child of the environment is a block on the stack.** -/
theorem simulates_inChild {x : Environment → Run α} {y : Stack.Run α}
    (h : ∀ child, Simulates child (x child) y) :
    Simulates env (inChild env x) (Stack.inBlock y) := by
  rintro s₀ ⟨scopes, sink, events⟩ ⟨scopes', sink'⟩ hheld ⟨hm, rfl⟩
  have hheld' := hheld.frame hm.frame
  obtain ⟨n, s₁, hs₁, hchild⟩ := exists_child hheld'
  have hrun := h (some n) s₁ ⟨s₁, sink, events⟩ ⟨{} :: scopes', sink⟩ hchild.held
    ⟨⟨hchild.scopes.trans (by rw [hm.scopes_eq]), .refl _ _⟩, rfl⟩
  -- However the block ends, its child is let go of.
  have hleave : ∀ m t, Machine.Mirrors (some n) s₁ m t →
      Machine.Mirrors env s₀ ⟨m.scopes.release (some n), m.sink, m.events⟩ ⟨t.scopes.tail, t.sink⟩ :=
    fun m t hmt => ⟨hm.trans (mirrors_release hheld' hchild hmt.1), hmt.2⟩
  unfold inChild Stack.inBlock
  simp only [hs₁, holding]
  match x (some n) ⟨s₁, sink, events⟩, y ⟨{} :: scopes', sink⟩, hrun with
  | _, _, .ok hab hst => exact .ok hab (hleave _ _ hst)
  | _, _, .error hed hst => exact .error hed (hleave _ _ hst)

theorem simulates_enterBlock {x : Run α} {y : Stack.Run α} (h : Simulates env x y) :
    Simulates env (do enterBlock env; x) y := by
  rintro s₀ ⟨scopes, sink, events⟩ t hheld hm
  exact h s₀ ⟨scopes, sink, .enteringBlock (scopes.depth env) :: events⟩ t hheld hm

theorem simulates_whileTrue {c : Run Value} {c' : Stack.Run Value} {body : Run Unit}
    {body' : Stack.Run Unit} (hc : Simulates env c c') (hbody : Simulates env body body')
    (bound : Nat) : Simulates env (whileTrue c body bound) (Stack.whileTrue c' body' bound) := by
  induction bound with
  | zero => exact fun _ _ _ _ h => .error rfl h
  | succ bound ih =>
    refine hc.bind fun v => ?_
    cases v.isTruthy with
    | true => exact hbody.bind fun _ => ih
    | false => exact simulates_pure ()

end Run

mutual

/-- **Executing on shared scopes is executing on a stack.** -/
theorem Stmt.simulates_exec (bound : Nat) (s : Stmt) (env : Environment) :
    Run.Simulates env (s.exec bound env) (Stack.exec bound s) := by
  cases s with
  | block body =>
    rw [Stmt.exec, Stack.exec]
    exact Run.simulates_inChild fun child =>
      Run.simulates_enterBlock (Stmt.simulates_execEach bound body child)
  | expr e =>
    rw [Stmt.exec, Stack.exec]
    exact (Run.simulates_eval (Eval.simulates_eval e)).bind fun _ => Run.simulates_pure ()
  | print e =>
    rw [Stmt.exec, Stack.exec]
    exact (Run.simulates_eval (Eval.simulates_eval e)).bind fun v => Run.simulates_writeLine _
  | declare t initial =>
    cases initial with
    | none =>
      rw [Stmt.exec, Stack.exec]
      exact Run.simulates_define _ _
    | some e =>
      rw [Stmt.exec, Stack.exec]
      exact (Run.simulates_eval (Eval.simulates_eval e)).bind fun v => Run.simulates_define _ _
  | ifThen c yes =>
    rw [Stmt.exec, Stack.exec]
    refine (Run.simulates_eval (Eval.simulates_eval c)).bind fun v => ?_
    cases v.isTruthy with
    | true => exact yes.simulates_exec bound env
    | false => exact Run.simulates_pure ()
  | ifElse c yes no =>
    rw [Stmt.exec, Stack.exec]
    refine (Run.simulates_eval (Eval.simulates_eval c)).bind fun v => ?_
    cases v.isTruthy with
    | true => exact yes.simulates_exec bound env
    | false => exact no.simulates_exec bound env
  | loop c body =>
    rw [Stmt.exec, Stack.exec]
    exact Run.simulates_whileTrue (Run.simulates_eval (Eval.simulates_eval c))
      (body.simulates_exec bound env) bound

/-- Executing statements one after the other on shared scopes is executing them on a stack. -/
theorem Stmt.simulates_execEach (bound : Nat) (ss : List Stmt) (env : Environment) :
    Run.Simulates env (Stmt.execEach bound ss env) (Stack.execEach bound ss) := by
  cases ss with
  | nil =>
    rw [Stmt.execEach, Stack.execEach]
    exact Run.simulates_pure ()
  | cons s ss =>
    rw [Stmt.execEach, Stack.execEach]
    exact (s.simulates_exec bound env).bind fun _ => Stmt.simulates_execEach bound ss env

end

/-! ### Programs -/

/-- **Holding the environment for a while changes nothing.** -/
theorem Run.simulates_holding {α : Type} {env : Environment} {x : Run α} {y : Stack.Run α}
    (h : Run.Simulates env x y) :
    Run.Simulates env (do
      Run.changeScopes fun s => s.retain env
      Run.holding env x) y := by
  rintro s₀ ⟨scopes, sink, events⟩ ⟨scopes', sink'⟩ hheld ⟨hm, rfl⟩
  have hheld' := hheld.frame hm.frame
  have hrun := h (scopes.retain env) ⟨scopes.retain env, sink, events⟩ ⟨scopes', sink⟩ hheld'.retain
    ⟨⟨(scopes.toList_retain env env).2.trans hm.scopes_eq, .refl _ _⟩, rfl⟩
  have hleave : ∀ m t, Machine.Mirrors env (scopes.retain env) m t →
      Machine.Mirrors env s₀ ⟨m.scopes.release env, m.sink, m.events⟩ t :=
    fun m t hmt => ⟨hm.trans (mirrors_retain_release hheld' hmt.1), hmt.2⟩
  show Lockstep Eq Eq _ (Run.holding env x ⟨scopes.retain env, sink, events⟩) _
  unfold Run.holding
  match x ⟨scopes.retain env, sink, events⟩, y ⟨scopes', sink⟩, hrun with
  | _, _, .ok hab hst => exact .ok hab (hleave _ _ hst)
  | _, _, .error hed hst => exact .error hed (hleave _ _ hst)

/-- **A program on shared scopes is a program on a stack.** -/
theorem simulates_interpret (bound : Nat) (globals : Environment) (program : List Stmt) :
    Run.Simulates globals (interpret bound globals program) (Stack.interpret bound program) :=
  Run.simulates_holding ((Stmt.simulates_execEach bound program globals).bind fun _ =>
    Run.simulates_output Sink.flush)

/-! ### What lockstep says of the ends -/

theorem Machine.Mirrors.view_eq {env : Environment} {s₀ : Scopes} {m : Machine} {t : Stack}
    (h : m.Mirrors env s₀ t) : m.view env = t := by
  rw [Machine.view, h.1.scopes_eq, h.2]

theorem Machine.mirrors_view (env : Environment) (m : Machine) :
    m.Mirrors env m.scopes (m.view env) :=
  ⟨.refl env m.scopes, rfl⟩

theorem Run.Simulates.mapState_eq {α : Type} {env : Environment} {x : Run α} {y : Stack.Run α}
    (h : Run.Simulates env x y) {m : Machine} (hm : Held m.scopes env) :
    mapState (Machine.view env) (x m) = y (m.view env) :=
  (h m.scopes m (m.view env) hm (m.mirrors_view env)).mapState_eq fun _ _ hst => hst.view_eq

/-- Runs one computation after the other, each on the state that the one before it left, however
that one ended. -/
def runAll {ε σ : Type} : List (EStateM ε σ Unit) → σ → List (Except ε Unit) × σ
  | [], s => ([], s)
  | x :: xs, s =>
    match x s with
    | .ok _ s => ((.ok () : Except ε Unit) :: (runAll xs s).1, (runAll xs s).2)
    | .error e s => (.error e :: (runAll xs s).1, (runAll xs s).2)

/-- Programs one after the other on shared scopes are programs one after the other on a stack. -/
theorem runAll_interpret (bound : Nat) (globals : Environment) (programs : List (List Stmt)) :
    ∀ m : Machine, Held m.scopes globals →
      (runAll (programs.map (interpret bound globals)) m).1 =
          (runAll (programs.map (Stack.interpret bound)) (m.view globals)).1 ∧
        (runAll (programs.map (interpret bound globals)) m).2.view globals =
          (runAll (programs.map (Stack.interpret bound)) (m.view globals)).2 := by
  induction programs with
  | nil => exact fun m _ => ⟨rfl, rfl⟩
  | cons program programs ih =>
    intro m hheld
    have hrun := simulates_interpret bound globals program m.scopes m (m.view globals) hheld
      (m.mirrors_view globals)
    simp only [List.map_cons, runAll]
    match interpret bound globals program m, Stack.interpret bound program (m.view globals), hrun with
    | _, _, .ok (s := m') (t := t) _ hst =>
      obtain ⟨h₁, h₂⟩ := ih m' (hheld.frame hst.1.frame)
      rw [hst.view_eq] at h₁ h₂
      exact ⟨congrArg (List.cons (.ok ())) h₁, h₂⟩
    | _, _, .error (s := m') (t := t) hed hst =>
      obtain ⟨h₁, h₂⟩ := ih m' (hheld.frame hst.1.frame)
      rw [hst.view_eq] at h₁ h₂
      subst hed
      exact ⟨congrArg (List.cons (.error _)) h₁, h₂⟩

/-- **Shared scopes refine a stack of scopes.**  In an environment that is held, evaluating,
executing a statement, executing statements in the environment itself, as a block does, and running
programs one after the other all end as on the stack of its scopes: with the same result or error,
the same sink and the same scopes, so that each program starts from the globals that the one before
it left. -/
theorem shared_scopes_refine_stack (bound : Nat) (env : Environment) (m : Machine)
    (h : Held m.scopes env) :
    (∀ e : Expr, mapState (fun s : Scopes => s.toList env) (e.eval env m.scopes) =
        Stack.eval e (m.scopes.toList env)) ∧
      (∀ s : Stmt, mapState (Machine.view env) (s.exec bound env m) =
        Stack.exec bound s (m.view env)) ∧
      (∀ ss : List Stmt, mapState (Machine.view env) (Stmt.execEach bound ss env m) =
        Stack.execEach bound ss (m.view env)) ∧
      (∀ ss : List Stmt, mapState (Machine.view env) (Stmt.execBlock bound ss env m) =
        Stack.execEach bound ss (m.view env)) ∧
      ∀ programs : List (List Stmt),
        (runAll (programs.map (interpret bound env)) m).1 =
            (runAll (programs.map (Stack.interpret bound)) (m.view env)).1 ∧
          (runAll (programs.map (interpret bound env)) m).2.view env =
            (runAll (programs.map (Stack.interpret bound)) (m.view env)).2 := by
  refine ⟨fun e => ?_, fun s => ?_, fun ss => ?_, fun ss => ?_, fun programs => ?_⟩
  · exact (Eval.simulates_eval e m.scopes m.scopes _ (.refl env m.scopes)).mapState_eq
      fun _ _ hst => hst.scopes_eq
  · exact (s.simulates_exec bound env).mapState_eq h
  · exact (Stmt.simulates_execEach bound ss env).mapState_eq h
  · exact (Run.simulates_enterBlock (Stmt.simulates_execEach bound ss env)).mapState_eq h
  · exact runAll_interpret bound env programs m h

theorem shared_scopes_refine_stack_child :
    let outer := (Scopes.create {}).2.define (some 0) "a" .nil
    let m : Machine := { scopes := (outer.child (some 0)).2 }
    let s : Stmt := .block [.declare (.identifier "b" 1) none,
      .expr (.assign (.identifier "a" 2) (.literal (.bool true))), .print (.name (.identifier "c" 3))]
    Held m.scopes (some 1) ∧
      mapState (Machine.view (some 1)) (s.exec 1 (some 1) m) = Stack.exec 1 s (m.view (some 1)) :=
  have h := ⟨1, ⟨{}, some 0, 1⟩, rfl, rfl, Nat.le_refl 1⟩
  ⟨h, (shared_scopes_refine_stack 1 (some 1) _ h).2.1 _⟩

end Lox
