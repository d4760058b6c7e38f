import Lox.Execution

/-!
# Programs on a stack of scopes

The meaning of programs without a store: a stack of scopes, the innermost one first, is handed from
step to step by value.  A block pushes an empty scope and pops it on every way out.  Nothing is
shared and nothing is counted.
-/

namespace Lox

/-- A stack of scopes, the innermost one first, and the sink. -/
structure Stack where
  scopes : List Scope
  sink : Sink

namespace Stack

/-- A computation on scopes that may stop with a runtime error. -/
abbrev Eval := EStateM RuntimeError (List Scope)

/-- A computation on a stack that may stop early. -/
abbrev Run := EStateM Stop Stack

/-! ### Variables -/

/-- Gives a variable of the innermost scope a value. -/
def define (name : String) (v : Value) : List Scope → List Scope
  | [] => []
  | scope :: scopes => scope.insert name v :: scopes

/-- Gives a variable a new value in the nearest scope that has it. -/
def assign? (name : String) (v : Value) : List Scope → Option (List Scope)
  | [] => none
  | scope :: scopes =>
    if scope.contains name then some (scope.insert name v :: scopes)
    else (assign? name v scopes).map (scope :: ·)

/-- The value of the variable that a token names. -/
def lookup (t : Token) : Eval Value := fun scopes =>
  match scopes.findSome? fun scope => scope[t.lexeme]? with
  | some v => .ok v scopes
  | none => .error ⟨.undefinedVariable, t⟩ scopes

/-- Assigns a value to the variable that a token names. -/
def assign (t : Token) (v : Value) : Eval Unit := fun scopes =>
  match assign? t.lexeme v scopes with
  | some scopes => .ok () scopes
  | none => .error ⟨.undefinedVariable, t⟩ scopes

/-! ### Expressions -/

/-- The result of an operation that leaves the scopes as they are. -/
def ofExcept {α : Type} : Except RuntimeError α → Eval α
  | .ok a => fun scopes => .ok a scopes
  | .error e => fun scopes => .error e scopes

/-- The value of an expression. -/
def eval : Expr → Eval Value
  | .literal v => return v
  | .grouping e => eval e
  | .name t => lookup t
  | .assign t e => do
    let v ← eval e
    assign t v
    return v
  | .unary op e => do
    let v ← eval e
    ofExcept (Operator.unary op v)
  | .binary l op r => do
    let x ← eval l
    let y ← eval r
    ofExcept (Operator.binary op x y)
  | .logical l op r => do
    let v ← eval l
    if ← ofExcept (Operator.decides op v) then return v else eval r

/-! ### Statements -/

section

variable {α : Type}

/-- A computation on the scopes. -/
def onScopes (x : Eval α) : Run α
  | ⟨scopes, sink⟩ =>
    match x scopes with
    | .ok a scopes => .ok a ⟨scopes, sink⟩
    | .error e scopes => .error (.fault e) ⟨scopes, sink⟩

/-- A computation on the sink. -/
def onSink (x : EStateM SinkFault Sink α) : Run α
  | ⟨scopes, sink⟩ =>
    match x sink with
    | .ok a sink => .ok a ⟨scopes, sink⟩
    | .error f sink => .error (.refused f) ⟨scopes, sink⟩

/-- Changes the scopes. -/
def changeScopes (f : List Scope → List Scope) : Run Unit
  | ⟨scopes, sink⟩ => .ok () ⟨f scopes, sink⟩

/-- Writes a text and the end of its line. -/
def writeLine (text : String) : Run Unit := onSink (Sink.write (text ++ "\n").toUTF8)

/-- Runs with an empty scope on top, which is taken off again however the run ends. -/
def inBlock (x : Run α) : Run α
  | ⟨scopes, sink⟩ =>
    match x ⟨{} :: scopes, sink⟩ with
    | .ok a ⟨scopes, sink⟩ => .ok a ⟨scopes.tail, sink⟩
    | .error e ⟨scopes, sink⟩ => .error e ⟨scopes.tail, sink⟩

/-- Goes round while the condition holds, at most `bound` times. -/
def whileTrue (condition : Run Value) (body : Run Unit) : Nat → Run Unit
  | 0 => throw .exhausted
  | bound + 1 => do
    if (← condition).isTruthy then
      body
      whileTrue condition body bound
    else return

end

mutual

/-- Executes a statement, every loop at most `bound` times round. -/
def exec (bound : Nat) : Stmt → Run Unit
  | .block body => inBlock (execEach bound body)
  | .expr e => discard (onScopes (eval e))
  | .print e => do
    let v ← onScopes (eval e)
    writeLine v.text
  | .declare t none => changeScopes (define t.lexeme .nil)
  | .declare t (some e) => do
    let v ← onScopes (eval e)
    changeScopes (define t.lexeme v)
  | .ifThen c yes => do
    if (← onScopes (eval c)).isTruthy then exec bound yes else return
  | .ifElse c yes no => do
    if (← onScopes (eval c)).isTruthy then exec bound yes else exec bound no
  | .loop c body => whileTrue (onScopes (eval c)) (exec bound body) bound

/-- Executes statements one after the other. -/
def execEach (bound : Nat) : List Stmt → Run Unit
  | [] => return
  | s :: ss => do
    exec bound s
    execEach bound ss

end

/-- Executes a program, and flushes the sink when all of it was run. -/
def interpret (bound : Nat) (program : List Stmt) : Run Unit := do
  execEach bound program
  onSink Sink.flush

end Stack

end Lox
