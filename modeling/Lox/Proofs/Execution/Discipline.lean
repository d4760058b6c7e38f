import Lox.Proofs.Execution.Refinement
import Lox.Proofs.Stack.Footprint

/-!
# Scope discipline

Executing a statement in an environment gives the environment back, however the execution ends: the
same chain of scopes, which keep to the footprint of the statement, in a store with the same cells,
links and counts (`scope_discipline`).

There is no bookkeeping for how deep a block is nested.  Its depth is the length of the chain when
it is entered, and that is the number of blocks around it in the program text, counted on from the
depth of the environment: execution is the same when an observer is told that number instead
(`Stmt.exec_eq_execNested`).
-/

namespace Lox

open SharedList SharedList.Store Scopes

/-! ### Blocks counted in the program text -/

mutual

/-- Executes a statement that has `depth` scopes around it.  The observer is told of a block how many
blocks are around it in the statement, its own included, counted on from `depth`. -/
def Stmt.execNested (bound depth : Nat) : Stmt → Environment → Run Unit
  | .block body, env => Run.inChild env fun child => do
    Run.tell (.enteringBlock (depth + 1))
    Stmt.execEachNested bound (depth + 1) body child
  | .expr e, env => discard (Run.eval (e.eval env))
  | .print e, env => do
    let v ← Run.eval (e.eval env)
    Run.writeLine v.text
  | .declare t none, env => Run.changeScopes fun s => s.define env t.lexeme .nil
  | .declare t (some e), env => do
    let v ← Run.eval (e.eval env)
    Run.changeScopes fun s => s.define env t.lexeme v
  | .ifThen c yes, env => do
    if (← Run.eval (c.eval env)).isTruthy then yes.execNested bound depth env else return
  | .ifElse c yes no, env => do
    if (← Run.eval (c.eval env)).isTruthy then yes.execNested bound depth env
    else no.execNested bound depth env
  | .loop c body, env =>
    Run.whileTrue (Run.eval (c.eval env)) (body.execNested bound depth env) bound

/-- Executes statements one after the other, all with `depth` scopes around them. -/
def Stmt.execEachNested (bound depth : Nat) : List Stmt → Environment → Run Unit
  | [], _ => return
  | s :: ss, env => do
    s.execNested bound depth env
    Stmt.execEachNested bound depth ss env

end

/-! ### What a computation leaves -/

namespace Run

variable {α β : Type} {env : Environment}

section

variable {x : Run α} {y : Stack.Run α} (h : Simulates env x y) {m : Machine}
  (hm : Held m.scopes env)

include h hm

/-- **The store has the same cells, links and counts,** and differs in the scopes of the environment
only. -/
theorem Simulates.frame :
    Frame (m.scopes.addresses env) m.scopes (endOf (x m)).scopes :=
  (h m.scopes m (m.view env) hm (m.mirrors_view env)).endOf.1.frame

theorem Simulates.toList_endOf :
    (endOf (x m)).scopes.toList env = (endOf (y (m.view env))).scopes :=
  (h m.scopes m (m.view env) hm (m.mirrors_view env)).endOf.1.scopes_eq

end

/-- The computations are the same in a held environment of the given depth. -/
def SameAt (env : Environment) (depth : Nat) (x x' : Run α) : Prop :=
  ∀ m : Machine, Held m.scopes env → m.scopes.depth env = depth → x m = x' m

theorem SameAt.refl (depth : Nat) (x : Run α) : SameAt env depth x x := fun _ _ _ => rfl

/-- **One step after the other,** where the first one keeps the environment. -/
theorem SameAt.bind {depth : Nat} {x x' : Run α} {y : Stack.Run α} {f f' : α → Run β}
    (hx : SameAt env depth x x') (hy : Simulates env x y) (hf : ∀ a, SameAt env depth (f a) (f' a)) :
    SameAt env depth (x >>= f) (x' >>= f') := by
  intro m hm hdepth
  have hframe := hy.frame hm
  cases hend : x m with
  | ok a m₁ =>
    rw [hend] at hframe
    rw [bind_of_ok f hend, bind_of_ok f' ((hx m hm hdepth).symm.trans hend)]
    refine hf a m₁ (hm.frame hframe) ?_
    rw [← hdepth]
    exact congrArg List.length (hframe.addresses env)
  | error e m₁ =>
    rw [bind_of_error f hend, bind_of_error f' ((hx m hm hdepth).symm.trans hend)]

/-- **A child is one scope deeper.** -/
theorem sameAt_inChild {depth : Nat} {x x' : Environment → Run α}
    (h : ∀ child, SameAt child (depth + 1) (x child) (x' child)) :
    SameAt env depth (inChild env x) (inChild env x') := by
  rintro ⟨scopes, sink, events⟩ hm hdepth
  obtain ⟨n, s₁, hs₁, hchild⟩ := exists_child hm
  have hlength : s₁.depth (some n) = depth + 1 := by
    rw [← hdepth]
    exact congrArg List.length hchild.addresses
  unfold inChild
  simp only [hs₁, holding, h (some n) ⟨s₁, sink, events⟩ hchild.held hlength]

theorem sameAt_enterBlock (depth : Nat) :
    SameAt env depth (enterBlock env) (tell (.enteringBlock depth)) := by
  rintro ⟨scopes, sink, events⟩ _ hdepth
  unfold enterBlock tell
  rw [← hdepth]

theorem sameAt_whileTrue {depth : Nat} {c : Run Value} {c' : Stack.Run Value} {body body' : Run Unit}
    {y : Stack.Run Unit} (hc : Simulates env c c') (hbody : SameAt env depth body body')
    (hy : Simulates env body y) (bound : Nat) :
    SameAt env depth (whileTrue c body bound) (whileTrue c body' bound) := by
  induction bound with
  | zero => exact .refl _ _
  | succ bound ih =>
    refine (SameAt.refl depth c).bind hc fun v => ?_
    cases v.isTruthy with
    | true => exact hbody.bind hy fun _ => ih
    | false => exact .refl _ _

end Run

open Run

/-! ### Statements -/

mutual

/-- **The depth of a block is the number of blocks around it in the program text.** -/
theorem Stmt.exec_eq_execNested (bound : Nat) (s : Stmt) (env : Environment) (depth : Nat) :
    SameAt env depth (s.exec bound env) (s.execNested bound depth env) := by
  have heval : ∀ e : Expr, Simulates env (Run.eval (e.eval env)) (Stack.onScopes (Stack.eval e)) :=
    fun e => Run.simulates_eval (Eval.simulates_eval e)
  cases s with
  | block body =>
    rw [Stmt.exec, Stmt.execNested]
    refine sameAt_inChild fun child => ?_
    have henter : Simulates child (enterBlock child) (pure ()) :=
      Run.simulates_enterBlock (x := pure ()) (Run.simulates_pure ())
    exact (sameAt_enterBlock (depth + 1)).bind henter fun _ =>
      Stmt.execEach_eq_execEachNested bound body child (depth + 1)
  | expr e =>
    rw [Stmt.exec, Stmt.execNested]
    exact .refl _ _
  | print e =>
    rw [Stmt.exec, Stmt.execNested]
    exact .refl _ _
  | declare t initial =>
    cases initial with
    | none =>
      rw [Stmt.exec, Stmt.execNested]
      exact .refl _ _
    | some e =>
      rw [Stmt.exec, Stmt.execNested]
      exact .refl _ _
  | ifThen c yes =>
    rw [Stmt.exec, Stmt.execNested]
    refine (SameAt.refl depth _).bind (heval c) fun v => ?_
    cases v.isTruthy with
    | true => exact yes.exec_eq_execNested bound env depth
    | false => exact .refl _ _
  | ifElse c yes no =>
    rw [Stmt.exec, Stmt.execNested]
    refine (SameAt.refl depth _).bind (heval c) fun v => ?_
    cases v.isTruthy with
    | true => exact yes.exec_eq_execNested bound env depth
    | false => exact no.exec_eq_execNested bound env depth
  | loop c body =>
    rw [Stmt.exec, Stmt.execNested]
    exact sameAt_whileTrue (heval c) (body.exec_eq_execNested bound env depth)
      (body.simulates_exec bound env) bound

theorem Stmt.execEach_eq_execEachNested (bound : Nat) (ss : List Stmt) (env : Environment)
    (depth : Nat) :
    SameAt env depth (Stmt.execEach bound ss env) (Stmt.execEachNested bound depth ss env) := by
  cases ss with
  | nil =>
    rw [Stmt.execEach, Stmt.execEachNested]
    exact .refl _ _
  | cons s ss =>
    rw [Stmt.execEach, Stmt.execEachNested]
    exact (s.exec_eq_execNested bound env depth).bind (s.simulates_exec bound env) fun _ =>
      Stmt.execEach_eq_execEachNested bound ss env depth

end

/-! ### The environment is given back -/

/-- The environment is the same chain of the same scopes, and these are kept but for the footprint.
Nothing else in the store has changed: the same cells are there, with the same links and counts, so
no scope was left behind. -/
structure Scopes.GivenBack (env : Environment) (declared targets : List String) (s s' : Scopes) :
    Prop where
  chain : s'.addresses env = s.addresses env
  depth : s'.depth env = s.depth env
  kept : Stack.Kept declared targets (s.toList env) (s'.toList env)
  frame : Frame (s.addresses env) s s'

theorem Scopes.givenBack_of_frame {env : Environment} {declared targets : List String}
    {s s' : Scopes} (hframe : Frame (s.addresses env) s s')
    (hkept : Stack.Kept declared targets (s.toList env) (s'.toList env)) :
    GivenBack env declared targets s s' :=
  ⟨hframe.addresses env, congrArg List.length (hframe.addresses env), hkept, hframe⟩

/-- **Scope discipline.**  However the execution of a statement in a held environment ends, the
environment is given back with its scopes kept but for the footprint of the statement, and each
block that was entered was as deep as the environment and the blocks around it in the statement, its
own included.  A statement that is a block declares nothing outside of it, and evaluating an
expression declares nothing at all. -/
theorem scope_discipline (bound : Nat) {env : Environment} {m : Machine} (h : Held m.scopes env) :
    (∀ s : Stmt,
      GivenBack env s.declared s.targets m.scopes (endOf (s.exec bound env m)).scopes ∧
      s.exec bound env m = s.execNested bound (m.scopes.depth env) env m) ∧
    (∀ body : List Stmt, GivenBack env [] (Stmt.targetsOf body) m.scopes
      (endOf ((Stmt.block body).exec bound env m)).scopes) ∧
    ∀ e : Expr, GivenBack env [] e.targets m.scopes (endOf (e.eval env m.scopes)) := by
  have hstmt : ∀ s : Stmt,
      GivenBack env s.declared s.targets m.scopes (endOf (s.exec bound env m)).scopes := by
    intro s
    have hsimulates := s.simulates_exec bound env
    refine givenBack_of_frame (hsimulates.frame h) ?_
    rw [hsimulates.toList_endOf h]
    exact Stack.keeps_exec bound s (m.view env)
  refine ⟨fun s => ⟨hstmt s, s.exec_eq_execNested bound env _ m h rfl⟩, fun body => ?_, fun e => ?_⟩
  · have hblock := hstmt (.block body)
    rwa [Stmt.declared, Stmt.targets] at hblock
  · have hend := (Eval.simulates_eval e m.scopes m.scopes _ (.refl env m.scopes)).endOf
    refine givenBack_of_frame hend.frame ?_
    rw [hend.scopes_eq]
    exact Stack.stays_kept_eval e (m.scopes.toList env)

/-- In a child of an environment with the variable `a`, a loop assigns to `a` in a block and then
fails in a block within that one. -/
theorem scope_discipline_failing_loop :
    let outer := (Scopes.create {}).2.define (some 0) "a" .nil
    let m : Machine := { scopes := (outer.child (some 0)).2 }
    let s : Stmt := .loop (.literal (.bool true)) (.block [.declare (.identifier "b" 1) none,
      .expr (.assign (.identifier "a" 2) (.literal (.bool true))),
      .block [.print (.name (.identifier "c" 3))]])
    Held m.scopes (some 1) ∧ m.scopes.depth (some 1) = 2 ∧
      GivenBack (some 1) [] ["a"] m.scopes (endOf (s.exec 5 (some 1) m)).scopes ∧
      (endOf (s.exec 5 (some 1) m)).events = [.enteringBlock 4, .enteringBlock 3] := by
  intro outer m s
  have hrun : m.scopes.depth (some 1) = 2 ∧
      (endOf (s.exec 5 (some 1) m)).events = [.enteringBlock 4, .enteringBlock 3] := by
    dsimp only [s, m, outer]
    decide +kernel
  have h : Held m.scopes (some 1) := ⟨1, ⟨{}, some 0, 1⟩, rfl, rfl, Nat.le_refl 1⟩
  obtain ⟨hback, -⟩ := (scope_discipline 5 h).1 s
  exact ⟨h, hrun.1, hback, hrun.2⟩

end Lox
