import Lox.Proofs.Execution.Refinement
import Lox.Proofs.Parser.Soundness
import Lox.Proofs.Stack.Gap

/-!
# Counting loops

What a derivation means, counting loops included.  A counting loop opens a scope only if it has an
initial part, runs that part in it, and then goes round: the condition, the body and the increment
all in that same scope.

The tree of a counting loop is built of the other statements, and its body and its increment stand
in a block of their own.  That block is entered anew in every round, but it stays empty: a statement
of the grammar declares nothing outside of its own blocks (`Statement.undeclaring_tree`).  So
executing the tree is running the derivation (`Statement.exec_tree`).
-/

namespace Lox

namespace Grammar

open Stack

/-! ### The meaning of derivations -/

/-- Whether to go round once more; without a condition, always. -/
def Header.holds (h : Header) : Stack.Run Value :=
  match h.condition with
  | none => return .bool true
  | some c => onScopes (eval c.tree)

/-- What is done after the body, if anything. -/
def Header.advance (h : Header) : Stack.Run Unit :=
  match h.increment with
  | none => return
  | some e => discard (onScopes (eval e.tree))

/-- Goes round a counting loop, in the scope that its initial part was run in. -/
def Header.rounds (bound : Nat) (h : Header) (body : Stack.Run Unit) : Stack.Run Unit :=
  whileTrue h.holds (do body; h.advance) bound

/-- Runs a counting loop.  It has a scope of its own only if it has an initial part. -/
def Header.run (bound : Nat) (h : Header) (body : Stack.Run Unit) : Stack.Run Unit :=
  match h.initial.tree with
  | none => h.rounds bound body
  | some initial => inBlock do
    exec bound initial
    h.rounds bound body

mutual

/-- Runs a statement. -/
def Statement.run (bound : Nat) : Statement → Stack.Run Unit
  | .expr e _ => exec bound (.expr e.tree)
  | .print _ e _ => exec bound (.print e.tree)
  | .block _ body _ => inBlock (Declaration.runEach bound body)
  | .ifThen _ c yes => do
    if (← onScopes (eval c.expr.tree)).isTruthy then yes.run bound else return
  | .ifElse _ c yes _ no => do
    if (← onScopes (eval c.expr.tree)).isTruthy then yes.run bound else no.run bound
  | .whileLoop _ c body => whileTrue (onScopes (eval c.expr.tree)) (body.run bound) bound
  | .forLoop _ header body => header.run bound (body.run bound)

/-- Runs a declaration. -/
def Declaration.run (bound : Nat) : Declaration → Stack.Run Unit
  | .declare v => exec bound v.tree
  | .statement s => s.run bound

/-- Runs declarations one after the other. -/
def Declaration.runEach (bound : Nat) : List Declaration → Stack.Run Unit
  | [] => return
  | d :: ds => do
    d.run bound
    Declaration.runEach bound ds

end

/-! ### Statements declare nothing outside of their blocks -/

theorem Header.undeclaring_tree (h : Header) {body : Stmt} (hbody : body.Undeclaring) :
    (h.tree body).Undeclaring := by
  have hround : (h.roundTree body).Undeclaring := by
    unfold Header.roundTree
    cases h.increment with
    | none => exact hbody
    | some e => exact trivial
  unfold Header.tree Header.loopTree
  cases h.initial.tree with
  | none =>
    cases h.condition with
    | none => exact hround
    | some c => exact hround
  | some initial => exact trivial

/-- **A statement declares nothing outside of its blocks.** -/
theorem Statement.undeclaring_tree (s : Statement) : s.tree.Undeclaring := by
  cases s with
  | expr e semicolon => exact trivial
  | print printKw e semicolon => exact trivial
  | block lbrace body rbrace => exact trivial
  | ifThen ifKw c yes => exact yes.undeclaring_tree
  | ifElse ifKw c yes elseKw no => exact ⟨yes.undeclaring_tree, no.undeclaring_tree⟩
  | whileLoop whileKw c body => exact body.undeclaring_tree
  | forLoop forKw header body => exact header.undeclaring_tree body.undeclaring_tree

/-! ### Executing the tree of a derivation -/

section

variable (bound : Nat)

theorem execEach_pair (s s' : Stmt) :
    execEach bound [s, s'] = (do
      exec bound s
      exec bound s') := by
  rw [execEach, execEach, execEach]
  exact congrArg (exec bound s >>= ·) (funext fun _ => bind_pure_unit)

/-- The block around the body and the increment can be left out. -/
theorem Header.exec_roundTree (h : Header) {body : Stmt} (hbody : body.Undeclaring) :
    exec bound (h.roundTree body) = (do
      exec bound body
      h.advance) := by
  unfold Header.roundTree Header.advance
  cases h.increment with
  | none => exact bind_pure_unit.symm
  | some e =>
    have hfollows : gap.Follows 0 (execEach bound [body, .expr e.tree])
        (execEach bound [body, .expr e.tree]) := by
      rw [execEach_pair]
      exact (gap_follows_exec bound hbody).bind fun _ => gap_follows_exec bound trivial
    show exec bound (.block [body, .expr e.tree]) = _
    rw [exec, inBlock_eq_self hfollows, execEach_pair, exec]

theorem Header.exec_loopTree (h : Header) {body : Stmt} (hbody : body.Undeclaring) :
    exec bound (h.loopTree body) = h.rounds bound (exec bound body) := by
  unfold Header.loopTree Header.rounds Header.holds
  cases h.condition with
  | none =>
    show exec bound (.loop (.literal (.bool true)) (h.roundTree body)) = _
    rw [exec, h.exec_roundTree bound hbody]
    rfl
  | some c =>
    show exec bound (.loop c.tree (h.roundTree body)) = _
    rw [exec, h.exec_roundTree bound hbody]

/-- **Executing the tree of a counting loop is running the loop.** -/
theorem Header.exec_tree (h : Header) {body : Stmt} (hbody : body.Undeclaring) :
    exec bound (h.tree body) = h.run bound (exec bound body) := by
  unfold Header.tree Header.run
  cases h.initial.tree with
  | none => exact h.exec_loopTree bound hbody
  | some initial =>
    show exec bound (.block [initial, h.loopTree body]) = _
    rw [exec, execEach_pair, h.exec_loopTree bound hbody]

end

mutual

/-- **Executing the tree of a statement is running the statement.** -/
theorem Statement.exec_tree (bound : Nat) (s : Statement) : exec bound s.tree = s.run bound := by
  cases s with
  | expr e semicolon => rw [Statement.tree, Statement.run]
  | print printKw e semicolon => rw [Statement.tree, Statement.run]
  | block lbrace body rbrace =>
    rw [Statement.tree, Statement.run, exec, Declaration.execEach_trees bound body]
  | ifThen ifKw c yes => rw [Statement.tree, Statement.run, exec, yes.exec_tree bound]
  | ifElse ifKw c yes elseKw no =>
    rw [Statement.tree, Statement.run, exec, yes.exec_tree bound, no.exec_tree bound]
  | whileLoop whileKw c body => rw [Statement.tree, Statement.run, exec, body.exec_tree bound]
  | forLoop forKw header body =>
    rw [Statement.tree, Statement.run, header.exec_tree bound body.undeclaring_tree,
      body.exec_tree bound]

theorem Declaration.exec_tree (bound : Nat) (d : Declaration) :
    exec bound d.tree = d.run bound := by
  cases d with
  | declare v => rw [Declaration.tree, Declaration.run]
  | statement s => rw [Declaration.tree, Declaration.run, s.exec_tree bound]

theorem Declaration.execEach_trees (bound : Nat) (ds : List Declaration) :
    execEach bound (Declaration.trees ds) = Declaration.runEach bound ds := by
  cases ds with
  | nil => rw [Declaration.trees, Declaration.runEach, execEach]
  | cons d ds =>
    rw [Declaration.trees, Declaration.runEach, execEach, d.exec_tree bound,
      Declaration.execEach_trees bound ds]

end

end Grammar

open Grammar

/-- **The tree of a counting loop means the loop.**  What is read after `for` without errors derives
from a header and a body.  In every environment that is held, executing what was read ends as
running the loop on the scopes of the environment: with the same result or error, the same output,
and the same scopes.  The condition, the body and the increment are run in one scope, which is new
only if there is an initial part, and so are the loops inside the body. -/
theorem counting_loop_means_loop (n bound : Nat) {t : Token} {ts rest : List Token} {s : Stmt}
    (ht : t.kind = .keyword .forKw) (hs : Parser.statement n (t :: ts) = ⟨.ok s, rest, []⟩) :
    ∃ (header : Header) (body : Statement), ts = header.tokens ++ (body.tokens ++ rest) ∧
      header.Proper ∧ body.Proper ∧ body.Near ∧ s = header.tree body.tree ∧
      ∀ (env : Environment) (m : Machine), Scopes.Held m.scopes env →
        mapState (Machine.view env) (s.exec bound env m) =
          header.run bound (body.run bound) (m.view env) := by
  have hreads := Parser.reads_statement n (t :: ts)
  rw [hs] at hreads
  obtain ⟨used, hused, d, htree, htokens, hfaults, hnear, -⟩ := hreads Parser.clean_nil
  have hproper := d.faults_eq_nil_iff.mp hfaults
  subst htokens htree
  obtain ⟨forKw, header, body, rfl⟩ := d.exists_forLoop ht hused
  rw [Statement.tokens, List.cons_append, List.append_assoc, List.cons.injEq] at hused
  refine ⟨header, body, hused.2, hproper.1, hproper.2, hnear, rfl, fun env m hheld => ?_⟩
  calc mapState (Machine.view env) (Stmt.exec bound (header.tree body.tree) env m)
      = Stack.exec bound (Statement.forLoop forKw header body).tree (m.view env) :=
        (Stmt.simulates_exec bound _ env).mapState_eq hheld
    _ = header.run bound (body.run bound) (m.view env) := by
        rw [Statement.exec_tree, Statement.run]

theorem counting_loop_means_loop_declared :
    let forKw : Token := ⟨.keyword .forKw, "for", 1⟩
    let a : Token := .identifier "a" 1
    let equal : Token := ⟨.symbol .equal, "=", 1⟩
    let semicolon : Token := ⟨.symbol .semicolon, ";", 1⟩
    let ts : List Token := [⟨.symbol .leftParen, "(", 1⟩, ⟨.keyword .varKw, "var", 1⟩, a, equal,
      ⟨.keyword .trueKw, "true", 1⟩, semicolon, a, semicolon, a, equal, ⟨.keyword .nilKw, "nil", 1⟩,
      ⟨.symbol .rightParen, ")", 1⟩, ⟨.keyword .printKw, "print", 1⟩, a, semicolon]
    let s : Stmt := .block [.declare a (some (.literal (.bool true))),
      .loop (.name a) (.block [.print (.name a), .expr (.assign a (.literal .nil))])]
    let m : Machine := { scopes := (Scopes.create {}).2 }
    forKw.kind = .keyword .forKw ∧ Parser.statement 16 (forKw :: ts) = ⟨.ok s, [], []⟩ ∧
      Scopes.Held m.scopes (some 0) ∧
      ∃ (header : Header) (body : Statement), ts = header.tokens ++ (body.tokens ++ []) ∧
        mapState (Machine.view (some 0)) (s.exec 2 (some 0) m) =
          header.run 2 (body.run 2) (m.view (some 0)) := by
  intro forKw a equal semicolon ts s m
  have hs : Parser.statement 16 (forKw :: ts) = ⟨.ok s, [], []⟩ := rfl
  have hm : Scopes.Held m.scopes (some 0) := ⟨0, ⟨{}, none, 1⟩, rfl, rfl, Nat.le_refl 1⟩
  obtain ⟨header, body, htokens, -, -, -, -, hrun⟩ := counting_loop_means_loop 16 2 rfl hs
  exact ⟨rfl, hs, hm, header, body, htokens, hrun (some 0) m hm⟩

end Lox
