import Lox.Evaluation
import Lox.Event
import Lox.Sink

/-!
# Execution of statements

A statement is executed in an environment. What it prints goes to a sink; a block runs in a child of
the environment, which is let go when the block is left, however it is left; and a run stops early
at a runtime error, when the sink refuses, or when a loop has gone round as often as it may.

Only that last bound makes execution total. It holds for every single loop of a program on its own,
and a run that stays below it is the same for every larger bound.
-/

namespace Lox

/-- Why a run stopped early. -/
inductive Stop where
  /-- The program is at fault. -/
  | fault (e : RuntimeError)
  /-- The sink refused. -/
  | refused (f : SinkFault)
  /-- A loop reached the bound on its rounds. -/
  | exhausted
deriving DecidableEq

/-- What a run works on: all scopes, the sink, and the events so far, the last one first. -/
structure Machine where
  scopes : Scopes := {}
  sink : Sink := {}
  events : List Event := []

/-- A computation on a machine that may stop early. -/
abbrev Run := EStateM Stop Machine

namespace Run

variable {α : Type}

/-- A computation on the scopes. -/
def eval (x : Eval α) : Run α
  | ⟨scopes, sink, events⟩ =>
    match x scopes with
    | .ok a scopes => .ok a ⟨scopes, sink, events⟩
    | .error e scopes => .error (.fault e) ⟨scopes, sink, events⟩

/-- A computation on the sink. -/
def output (x : EStateM SinkFault Sink α) : Run α
  | ⟨scopes, sink, events⟩ =>
    match x sink with
    | .ok a sink => .ok a ⟨scopes, sink, events⟩
    | .error f sink => .error (.refused f) ⟨scopes, sink, events⟩

/-- Changes the scopes. -/
def changeScopes (f : Scopes → Scopes) : Run Unit
  | ⟨scopes, sink, events⟩ => .ok () ⟨f scopes, sink, events⟩

/-- Writes a text and the end of its line. -/
def writeLine (text : String) : Run Unit := output (Sink.write (text ++ "\n").toUTF8)

/-- Tells the observer of an event. -/
def tell (e : Event) : Run Unit
  | ⟨scopes, sink, events⟩ => .ok () ⟨scopes, sink, e :: events⟩

/-- Holds an environment for the time of a computation, however that ends. -/
def holding (env : Environment) (x : Run α) : Run α := fun m =>
  match x m with
  | .ok a ⟨scopes, sink, events⟩ => .ok a ⟨scopes.release env, sink, events⟩
  | .error e ⟨scopes, sink, events⟩ => .error e ⟨scopes.release env, sink, events⟩

/-- Runs in a child of an environment. -/
def inChild (env : Environment) (x : Environment → Run α) : Run α
  | ⟨scopes, sink, events⟩ =>
    match scopes.child env with
    | (child, scopes) => holding child (x child) ⟨scopes, sink, events⟩

/-- Tells the observer that a block is entered in an environment. -/
def enterBlock (env : Environment) : Run Unit
  | ⟨scopes, sink, events⟩ =>
    let depth := scopes.depth env
    .ok () ⟨scopes, sink, .enteringBlock depth :: events⟩

/-- Goes round while the condition holds, at most `bound` times. -/
def whileTrue (condition : Run Value) (body : Run Unit) : Nat → Run Unit
  | 0 => throw .exhausted
  | bound + 1 => do
    if (← condition).isTruthy then
      body
      whileTrue condition body bound
    else return

end Run

mutual

/-- Executes a statement in an environment, every loop at most `bound` times round. -/
def Stmt.exec (bound : Nat) : Stmt → Environment → Run Unit
  | .block body, env => Run.inChild env fun child => do
    Run.enterBlock child
    Stmt.execEach bound body child
  | .expr e, env => discard (Run.eval (e.eval env))
  | .print e, env => do
    let v ← Run.eval (e.eval env)
    Run.writeLine v.text
  | .declare t none, env => Run.changeScopes fun s => s.define env t.lexeme .nil
  | .declare t (some e), env => do
    let v ← Run.eval (e.eval env)
    Run.changeScopes fun s => s.define env t.lexeme v
  | .ifThen c yes, env => do
    if (← Run.eval (c.eval env)).isTruthy then yes.exec bound env else return
  | .ifElse c yes no, env => do
    if (← Run.eval (c.eval env)).isTruthy then yes.exec bound env else no.exec bound env
  | .loop c body, env => Run.whileTrue (Run.eval (c.eval env)) (body.exec bound env) bound

/-- Executes statements one after the other. -/
def Stmt.execEach (bound : Nat) : List Stmt → Environment → Run Unit
  | [], _ => return
  | s :: ss, env => do
    s.exec bound env
    Stmt.execEach bound ss env

end

/-- Executes the statements of a block directly in the environment given. -/
def Stmt.execBlock (bound : Nat) (body : List Stmt) (env : Environment) : Run Unit := do
  Run.enterBlock env
  Stmt.execEach bound body env

/-- Executes a program in its global environment, and flushes the sink when all of it was run. -/
def interpret (bound : Nat) (globals : Environment) (program : List Stmt) : Run Unit := do
  Run.changeScopes fun s => s.retain globals
  Run.holding globals do
    Stmt.execEach bound program globals
    Run.output Sink.flush

end Lox
