import Lox.Operator
import Lox.Tree

/-!
# The tokens of a tree

The tokens that a tree keeps, those of them that name a variable, and trees with other tokens in the
same places.  An operator looks at nothing but the kind of its token: with another token of that
kind it has the same value, or the same fault at the other token (`alike_unary`, `alike_binary`,
`alike_decides`).
-/

namespace Lox

/-! ### The tokens that a tree keeps -/

/-- The names and operators of an expression. -/
def Expr.tokens : Expr → List Token
  | .literal _ => []
  | .grouping e => e.tokens
  | .name t => [t]
  | .assign t e => t :: e.tokens
  | .unary op e => op :: e.tokens
  | .binary l op r => l.tokens ++ op :: r.tokens
  | .logical l op r => l.tokens ++ op :: r.tokens

mutual

/-- The names and operators of a statement. -/
def Stmt.tokens : Stmt → List Token
  | .block body => Stmt.tokensOf body
  | .expr e => e.tokens
  | .print e => e.tokens
  | .declare t none => [t]
  | .declare t (some e) => t :: e.tokens
  | .ifThen c yes => c.tokens ++ yes.tokens
  | .ifElse c yes no => c.tokens ++ (yes.tokens ++ no.tokens)
  | .loop c body => c.tokens ++ body.tokens

/-- The names and operators of statements, in order. -/
def Stmt.tokensOf : List Stmt → List Token
  | [] => []
  | s :: ss => s.tokens ++ Stmt.tokensOf ss

end

/-- The tokens of an expression that name a variable. -/
def Expr.names : Expr → List Token
  | .literal _ => []
  | .grouping e => e.names
  | .name t => [t]
  | .assign t e => t :: e.names
  | .unary _ e => e.names
  | .binary l _ r => l.names ++ r.names
  | .logical l _ r => l.names ++ r.names

mutual

/-- The tokens of a statement that name a variable, whether it is read, assigned or declared. -/
def Stmt.names : Stmt → List Token
  | .block body => Stmt.namesOf body
  | .expr e => e.names
  | .print e => e.names
  | .declare t none => [t]
  | .declare t (some e) => t :: e.names
  | .ifThen c yes => c.names ++ yes.names
  | .ifElse c yes no => c.names ++ (yes.names ++ no.names)
  | .loop c body => c.names ++ body.names

/-- The tokens of statements that name a variable. -/
def Stmt.namesOf : List Stmt → List Token
  | [] => []
  | s :: ss => s.names ++ Stmt.namesOf ss

end

/-! ### Other tokens in the same places -/

/-- An expression with other tokens in the same places. -/
def Expr.relabel (f : Token → Token) : Expr → Expr
  | .literal v => .literal v
  | .grouping e => .grouping (e.relabel f)
  | .name t => .name (f t)
  | .assign t e => .assign (f t) (e.relabel f)
  | .unary op e => .unary (f op) (e.relabel f)
  | .binary l op r => .binary (l.relabel f) (f op) (r.relabel f)
  | .logical l op r => .logical (l.relabel f) (f op) (r.relabel f)

mutual

/-- A statement with other tokens in the same places. -/
def Stmt.relabel (f : Token → Token) : Stmt → Stmt
  | .block body => .block (Stmt.relabelEach f body)
  | .expr e => .expr (e.relabel f)
  | .print e => .print (e.relabel f)
  | .declare t none => .declare (f t) none
  | .declare t (some e) => .declare (f t) (some (e.relabel f))
  | .ifThen c yes => .ifThen (c.relabel f) (yes.relabel f)
  | .ifElse c yes no => .ifElse (c.relabel f) (yes.relabel f) (no.relabel f)
  | .loop c body => .loop (c.relabel f) (body.relabel f)

/-- Statements with other tokens in the same places. -/
def Stmt.relabelEach (f : Token → Token) : List Stmt → List Stmt
  | [] => []
  | s :: ss => s.relabel f :: Stmt.relabelEach f ss

end

theorem Stmt.relabelEach_append (f : Token → Token) (ss ss' : List Stmt) :
    Stmt.relabelEach f (ss ++ ss') = Stmt.relabelEach f ss ++ Stmt.relabelEach f ss' := by
  induction ss with
  | nil => rfl
  | cons s ss ih => rw [List.cons_append, Stmt.relabelEach, ih, Stmt.relabelEach, List.cons_append]

theorem Stmt.relabelEach_toList (f : Token → Token) (s : Option Stmt) :
    Stmt.relabelEach f s.toList = (s.map (Stmt.relabel f)).toList := by
  cases s <;> rfl

@[simp]
theorem Expr.relabel_id (e : Expr) : e.relabel id = e := by
  induction e with
  | literal v => rfl
  | grouping e ih => rw [Expr.relabel, ih]
  | name t => rfl
  | assign t e ih => rw [Expr.relabel, ih, id]
  | unary op e ih => rw [Expr.relabel, ih, id]
  | binary l op r ihl ihr => rw [Expr.relabel, ihl, ihr, id]
  | logical l op r ihl ihr => rw [Expr.relabel, ihl, ihr, id]

mutual

@[simp]
theorem Stmt.relabel_id (s : Stmt) : s.relabel id = s := by
  cases s with
  | block body => rw [Stmt.relabel, Stmt.relabelEach_id body]
  | expr e => rw [Stmt.relabel, e.relabel_id]
  | print e => rw [Stmt.relabel, e.relabel_id]
  | declare t initial =>
    cases initial with
    | none => rw [Stmt.relabel, id]
    | some e => rw [Stmt.relabel, e.relabel_id, id]
  | ifThen c yes => rw [Stmt.relabel, c.relabel_id, yes.relabel_id]
  | ifElse c yes no => rw [Stmt.relabel, c.relabel_id, yes.relabel_id, no.relabel_id]
  | loop c body => rw [Stmt.relabel, c.relabel_id, body.relabel_id]

@[simp]
theorem Stmt.relabelEach_id (ss : List Stmt) : Stmt.relabelEach id ss = ss := by
  cases ss with
  | nil => rw [Stmt.relabelEach]
  | cons s ss => rw [Stmt.relabelEach, s.relabel_id, Stmt.relabelEach_id ss]

end

/-! ### Tokens that stay -/

theorem Expr.eq_of_relabel_eq {f : Token → Token} {e : Expr} (h : e.relabel f = e) :
    ∀ t ∈ e.tokens, f t = t := by
  induction e with
  | literal v => exact fun _ ht => (List.not_mem_nil ht).elim
  | grouping e ih => exact ih (Expr.grouping.inj h)
  | name t =>
    rw [Expr.tokens, List.forall_mem_singleton]
    exact Expr.name.inj h
  | assign t e ih =>
    obtain ⟨ht, he⟩ := Expr.assign.inj h
    rw [Expr.tokens, List.forall_mem_cons]
    exact ⟨ht, ih he⟩
  | unary op e ih =>
    obtain ⟨hop, he⟩ := Expr.unary.inj h
    rw [Expr.tokens, List.forall_mem_cons]
    exact ⟨hop, ih he⟩
  | binary l op r ihl ihr =>
    obtain ⟨hl, hop, hr⟩ := Expr.binary.inj h
    rw [Expr.tokens, List.forall_mem_append, List.forall_mem_cons]
    exact ⟨ihl hl, hop, ihr hr⟩
  | logical l op r ihl ihr =>
    obtain ⟨hl, hop, hr⟩ := Expr.logical.inj h
    rw [Expr.tokens, List.forall_mem_append, List.forall_mem_cons]
    exact ⟨ihl hl, hop, ihr hr⟩

mutual

theorem Stmt.eq_of_relabel_eq {f : Token → Token} (s : Stmt) (h : s.relabel f = s) :
    ∀ t ∈ s.tokens, f t = t := by
  cases s with
  | block body =>
    rw [Stmt.relabel] at h
    rw [Stmt.tokens]
    exact Stmt.eq_of_relabelEach_eq body (Stmt.block.inj h)
  | expr e =>
    rw [Stmt.relabel] at h
    rw [Stmt.tokens]
    exact Expr.eq_of_relabel_eq (Stmt.expr.inj h)
  | print e =>
    rw [Stmt.relabel] at h
    rw [Stmt.tokens]
    exact Expr.eq_of_relabel_eq (Stmt.print.inj h)
  | declare t initial =>
    cases initial with
    | none =>
      rw [Stmt.relabel] at h
      rw [Stmt.tokens, List.forall_mem_singleton]
      exact (Stmt.declare.inj h).1
    | some e =>
      rw [Stmt.relabel] at h
      rw [Stmt.tokens, List.forall_mem_cons]
      obtain ⟨ht, he⟩ := Stmt.declare.inj h
      exact ⟨ht, Expr.eq_of_relabel_eq (Option.some.inj he)⟩
  | ifThen c yes =>
    rw [Stmt.relabel] at h
    obtain ⟨hc, hyes⟩ := Stmt.ifThen.inj h
    rw [Stmt.tokens, List.forall_mem_append]
    exact ⟨Expr.eq_of_relabel_eq hc, yes.eq_of_relabel_eq hyes⟩
  | ifElse c yes no =>
    rw [Stmt.relabel] at h
    obtain ⟨hc, hyes, hno⟩ := Stmt.ifElse.inj h
    rw [Stmt.tokens, List.forall_mem_append, List.forall_mem_append]
    exact ⟨Expr.eq_of_relabel_eq hc, yes.eq_of_relabel_eq hyes, no.eq_of_relabel_eq hno⟩
  | loop c body =>
    rw [Stmt.relabel] at h
    obtain ⟨hc, hbody⟩ := Stmt.loop.inj h
    rw [Stmt.tokens, List.forall_mem_append]
    exact ⟨Expr.eq_of_relabel_eq hc, body.eq_of_relabel_eq hbody⟩

theorem Stmt.eq_of_relabelEach_eq {f : Token → Token} (ss : List Stmt)
    (h : Stmt.relabelEach f ss = ss) : ∀ t ∈ Stmt.tokensOf ss, f t = t := by
  cases ss with
  | nil => exact fun _ ht => (List.not_mem_nil ht).elim
  | cons s ss =>
    rw [Stmt.relabelEach] at h
    obtain ⟨hs, hss⟩ := List.cons.inj h
    rw [Stmt.tokensOf, List.forall_mem_append]
    exact ⟨s.eq_of_relabel_eq hs, Stmt.eq_of_relabelEach_eq ss hss⟩

end

/-! ### Operators with other tokens -/

namespace Operator

variable {α : Type} {op op' : Token}

/-- The same value, or the same fault, at the one token and at the other. -/
inductive Alike (op op' : Token) : Except RuntimeError α → Except RuntimeError α → Prop
  | ok (a : α) : Alike op op' (.ok a) (.ok a)
  | fault (f : RuntimeFault) : Alike op op' (faultAt op f) (faultAt op' f)

theorem alike_unary (h : op'.kind = op.kind) (v : Value) :
    Alike op op' (unary op v) (unary op' v) := by
  unfold unary
  rw [h]
  split
  · split
    · exact .ok _
    · exact .fault _
  · exact .ok _
  · exact .fault _

theorem alike_numeric (h : op'.kind = op.kind) (x y : Float) :
    Alike op op' (numeric op x y) (numeric op' x y) := by
  unfold numeric
  rw [h]
  split
  case h_9 => exact .fault _
  all_goals exact .ok _

theorem alike_binary (h : op'.kind = op.kind) (l r : Value) :
    Alike op op' (binary op l r) (binary op' l r) := by
  unfold binary
  rw [h]
  split
  · exact .ok _
  · exact .ok _
  · split
    · exact alike_numeric h _ _
    · split
      · exact .ok _
      · exact .fault _
    · split
      · exact .fault _
      · exact .fault _

theorem alike_decides (h : op'.kind = op.kind) (v : Value) :
    Alike op op' (decides op v) (decides op' v) := by
  unfold decides
  rw [h]
  split
  · exact .ok _
  · exact .ok _
  · exact .fault _

end Operator

end Lox
