import Lox.Execution
import Lox.Proofs.Lockstep

/-!
# Where runtime errors come from

`Stops x P` says that every error a computation stops with has the property `P`.  With it the
runtime errors of a program are traced back to its tree: one that a statement raises, in any
environment and on any machine, is the fault of some name that is looked up or assigned to, or what
some operator of the tree makes of some values (`Stmt.stops_exec`, `stops_interpret`).  These are
the errors that the tree *may raise*; which of them it does raise is for a run to say.
-/

namespace Lox

/-! ### The errors a computation stops with -/

section Stops

variable {ε σ α β : Type} {P Q : ε → Prop}

/-- Every error that the computation stops with has the property. -/
def Stops (x : EStateM ε σ α) (P : ε → Prop) : Prop := ∀ s e s', x s = .error e s' → P e

namespace Stops

theorem mono {x : EStateM ε σ α} (h : Stops x P) (hPQ : ∀ e, P e → Q e) : Stops x Q :=
  fun s e s' hx => hPQ e (h s e s' hx)

theorem pure (a : α) (P : ε → Prop) : Stops (Pure.pure a : EStateM ε σ α) P :=
  fun _ _ _ h => nomatch h

/-- **Two steps stop with what the one or the other stops with.** -/
theorem bind {x : EStateM ε σ α} {f : α → EStateM ε σ β} (hx : Stops x P)
    (hf : ∀ a, Stops (f a) P) : Stops (x >>= f) P := by
  intro s e s' h
  cases hxs : x s with
  | ok a t =>
    rw [bind_of_ok f hxs] at h
    exact hf a t e s' h
  | error d t =>
    rw [bind_of_error f hxs] at h
    cases h
    exact hx s e s' hxs

end Stops

end Stops

/-! ### What a tree may raise -/

/-- The error is what an expression may stop with: some name in it is not defined, or some operator
in it does not like its operands. -/
def Expr.MayRaise : Expr → RuntimeError → Prop
  | .literal _, _ => False
  | .grouping e, x => e.MayRaise x
  | .name t, x => x = ⟨.undefinedVariable, t⟩
  | .assign t e, x => e.MayRaise x ∨ x = ⟨.undefinedVariable, t⟩
  | .unary op e, x => e.MayRaise x ∨ ∃ v, Operator.unary op v = .error x
  | .binary l op r, x => l.MayRaise x ∨ r.MayRaise x ∨ ∃ v w, Operator.binary op v w = .error x
  | .logical l op r, x => l.MayRaise x ∨ r.MayRaise x ∨ ∃ v, Operator.decides op v = .error x

mutual

/-- The error is what some expression of the statement may stop with. -/
def Stmt.MayRaise : Stmt → RuntimeError → Prop
  | .block body, x => Stmt.MayRaiseEach body x
  | .expr e, x => e.MayRaise x
  | .print e, x => e.MayRaise x
  | .declare _ none, _ => False
  | .declare _ (some e), x => e.MayRaise x
  | .ifThen c yes, x => c.MayRaise x ∨ yes.MayRaise x
  | .ifElse c yes no, x => c.MayRaise x ∨ yes.MayRaise x ∨ no.MayRaise x
  | .loop c body, x => c.MayRaise x ∨ body.MayRaise x

/-- The error is what some expression of some statement may stop with. -/
def Stmt.MayRaiseEach : List Stmt → RuntimeError → Prop
  | [], _ => False
  | s :: ss, x => s.MayRaise x ∨ Stmt.MayRaiseEach ss x

end

/-! ### Expressions -/

theorem stops_ofExcept {α : Type} (r : Except RuntimeError α) :
    Stops (Eval.ofExcept r) fun x => r = .error x := by
  intro s e s' h
  cases r with
  | ok a => cases h
  | error d => cases h; rfl

theorem stops_lookup (env : Environment) (t : Token) :
    Stops (Eval.lookup env t) fun x => x = ⟨.undefinedVariable, t⟩ := by
  intro s e s' h
  unfold Eval.lookup at h
  split at h
  · cases h
  · cases h; rfl

theorem stops_assign (env : Environment) (t : Token) (v : Value) :
    Stops (Eval.assign env t v) fun x => x = ⟨.undefinedVariable, t⟩ := by
  intro s e s' h
  unfold Eval.assign at h
  split at h
  · cases h
  · cases h; rfl

/-- **An expression raises nothing but what its tree may raise.** -/
theorem Expr.stops_eval (env : Environment) (e : Expr) : Stops (e.eval env) e.MayRaise := by
  induction e with
  | literal v => exact Stops.pure v _
  | grouping e ih => exact ih
  | name t => exact stops_lookup env t
  | assign t e ih =>
    refine (ih.mono fun x => .inl).bind fun v => ?_
    exact ((stops_assign env t v).mono fun x => .inr).bind fun _ => Stops.pure v _
  | unary op e ih =>
    refine (ih.mono fun x => .inl).bind fun v => ?_
    exact (stops_ofExcept _).mono fun x hx => .inr ⟨v, hx⟩
  | binary l op r ihl ihr =>
    refine (ihl.mono fun x => .inl).bind fun v => ?_
    refine (ihr.mono fun x hx => .inr (.inl hx)).bind fun w => ?_
    exact (stops_ofExcept _).mono fun x hx => .inr (.inr ⟨v, w, hx⟩)
  | logical l op r ihl ihr =>
    refine (ihl.mono fun x => .inl).bind fun v => ?_
    refine ((stops_ofExcept _).mono fun x hx => .inr (.inr ⟨v, hx⟩)).bind fun decided => ?_
    cases decided with
    | true => exact Stops.pure v _
    | false => exact ihr.mono fun x hx => .inr (.inl hx)

/-! ### Statements -/

/-- If the run was stopped by a runtime error, that error has the property. -/
def Stop.Within (P : RuntimeError → Prop) : Stop → Prop
  | .fault e => P e
  | .refused _ => True
  | .exhausted => True

namespace Run

variable {α : Type} {P Q : RuntimeError → Prop}

theorem within_mono (hPQ : ∀ e, P e → Q e) : ∀ stop : Stop, stop.Within P → stop.Within Q
  | .fault e, h => hPQ e h
  | .refused _, _ => trivial
  | .exhausted, _ => trivial

theorem stops_eval {x : Eval α} (h : Stops x P) : Stops (Run.eval x) (Stop.Within P) := by
  rintro ⟨scopes, sink, events⟩ stop m' hm
  unfold Run.eval at hm
  dsimp only at hm
  split at hm
  · cases hm
  · next e scopes' he =>
    cases hm
    exact h _ _ _ he

theorem stops_output (x : EStateM SinkFault Sink α) : Stops (Run.output x) (Stop.Within P) := by
  rintro ⟨scopes, sink, events⟩ stop m' hm
  unfold Run.output at hm
  dsimp only at hm
  split at hm
  · cases hm
  · cases hm
    trivial

theorem stops_changeScopes (f : Scopes → Scopes) : Stops (changeScopes f) (Stop.Within P) :=
  fun _ _ _ h => nomatch h

theorem stops_enterBlock (env : Environment) : Stops (enterBlock env) (Stop.Within P) :=
  fun _ _ _ h => nomatch h

theorem stops_holding {x : Run α} (env : Environment) (h : Stops x (Stop.Within P)) :
    Stops (holding env x) (Stop.Within P) := by
  intro m stop m' hm
  unfold holding at hm
  split at hm
  · cases hm
  · next e scopes sink events he =>
    cases hm
    exact h _ _ _ he

theorem stops_inChild {x : Environment → Run α} (env : Environment)
    (h : ∀ child, Stops (x child) (Stop.Within P)) : Stops (inChild env x) (Stop.Within P) := by
  rintro ⟨scopes, sink, events⟩ stop m' hm
  exact stops_holding _ (h _) _ _ _ hm

/-- However often a loop goes round, it stops with what its condition or its body stops with. -/
theorem stops_whileTrue {condition : Run Value} {body : Run Unit}
    (hcondition : Stops condition (Stop.Within P)) (hbody : Stops body (Stop.Within P))
    (bound : Nat) : Stops (whileTrue condition body bound) (Stop.Within P) := by
  induction bound with
  | zero =>
    intro m stop m' hm
    cases hm
    trivial
  | succ bound ih =>
    refine hcondition.bind fun v => ?_
    cases v.isTruthy with
    | true => exact hbody.bind fun _ => ih
    | false => exact Stops.pure () _

end Run

open Run

mutual

/-- **A statement raises nothing but what its tree may raise.** -/
theorem Stmt.stops_exec (bound : Nat) (s : Stmt) (env : Environment) :
    Stops (s.exec bound env) (Stop.Within s.MayRaise) := by
  have heval : ∀ {P : RuntimeError → Prop} (e : Expr), (∀ x, e.MayRaise x → P x) →
      Stops (Run.eval (e.eval env)) (Stop.Within P) :=
    fun e h => stops_eval ((e.stops_eval env).mono h)
  cases s with
  | block body =>
    rw [Stmt.exec]
    exact stops_inChild env fun child =>
      (stops_enterBlock child).bind fun _ => Stmt.stops_execEach bound body child
  | expr e =>
    rw [Stmt.exec]
    exact (heval e fun x => id).bind fun _ => Stops.pure () _
  | print e =>
    rw [Stmt.exec]
    exact (heval e fun x => id).bind fun v => stops_output _
  | declare t initial =>
    cases initial with
    | none =>
      rw [Stmt.exec]
      exact stops_changeScopes _
    | some e =>
      rw [Stmt.exec]
      exact (heval e fun x => id).bind fun v => stops_changeScopes _
  | ifThen c yes =>
    rw [Stmt.exec]
    refine (heval c fun x => .inl).bind fun v => ?_
    cases v.isTruthy with
    | true => exact (Stmt.stops_exec bound yes env).mono (within_mono fun x => .inr)
    | false => exact Stops.pure () _
  | ifElse c yes no =>
    rw [Stmt.exec]
    refine (heval c fun x => .inl).bind fun v => ?_
    cases v.isTruthy with
    | true => exact (Stmt.stops_exec bound yes env).mono (within_mono fun x hx => .inr (.inl hx))
    | false => exact (Stmt.stops_exec bound no env).mono (within_mono fun x hx => .inr (.inr hx))
  | loop c body =>
    rw [Stmt.exec]
    exact stops_whileTrue (heval c fun x => .inl)
      ((Stmt.stops_exec bound body env).mono (within_mono fun x => .inr)) bound

theorem Stmt.stops_execEach (bound : Nat) (ss : List Stmt) (env : Environment) :
    Stops (Stmt.execEach bound ss env) (Stop.Within (Stmt.MayRaiseEach ss)) := by
  cases ss with
  | nil =>
    rw [Stmt.execEach]
    exact Stops.pure () _
  | cons s ss =>
    rw [Stmt.execEach]
    exact ((Stmt.stops_exec bound s env).mono (within_mono fun x => .inl)).bind fun _ =>
      (Stmt.stops_execEach bound ss env).mono (within_mono fun x => .inr)

end

theorem stops_interpret (bound : Nat) (globals : Environment) (program : List Stmt) :
    Stops (interpret bound globals program) (Stop.Within (Stmt.MayRaiseEach program)) :=
  (stops_changeScopes _).bind fun _ => stops_holding globals
    ((Stmt.stops_execEach bound program globals).bind fun _ => stops_output _)

end Lox
