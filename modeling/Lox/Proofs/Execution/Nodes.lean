import Lox.Proofs.Execution.Operators

/-!
# The node that raises a runtime error

A runtime error of a well-shaped tree *arises at* one of its nodes: at a variable or an assignment
if the variable is not defined, and otherwise at a prefix operator or an operator between two
operands (`Stmt.exists_node`).  The token of the error is the name or the operator of that node.  A
logical operator raises nothing, since in a well-shaped tree it is never unknown.
-/

namespace Lox

/-! ### The nodes of a tree -/

/-- The nodes of an expression: the expression and all parts of it. -/
def Expr.nodes : Expr → List Expr
  | .literal v => [.literal v]
  | .grouping e => .grouping e :: e.nodes
  | .name t => [.name t]
  | .assign t e => .assign t e :: e.nodes
  | .unary op e => .unary op e :: e.nodes
  | .binary l op r => .binary l op r :: (l.nodes ++ r.nodes)
  | .logical l op r => .logical l op r :: (l.nodes ++ r.nodes)

mutual

/-- The nodes of all expressions of a statement. -/
def Stmt.nodes : Stmt → List Expr
  | .block body => Stmt.nodesOf body
  | .expr e => e.nodes
  | .print e => e.nodes
  | .declare _ none => []
  | .declare _ (some e) => e.nodes
  | .ifThen c yes => c.nodes ++ yes.nodes
  | .ifElse c yes no => c.nodes ++ (yes.nodes ++ no.nodes)
  | .loop c body => c.nodes ++ body.nodes

/-- The nodes of all expressions of statements. -/
def Stmt.nodesOf : List Stmt → List Expr
  | [] => []
  | s :: ss => s.nodes ++ Stmt.nodesOf ss

end

/-- The node is a variable or an assignment with the given name. -/
def Expr.NamedBy (n : Expr) (t : Token) : Prop := n = .name t ∨ ∃ e, n = .assign t e

/-- The node is a prefix operator, or an operator between two operands that are both evaluated. -/
def Expr.OperatedBy (n : Expr) (op : Token) : Prop :=
  (∃ e, n = .unary op e) ∨ ∃ l r, n = .binary l op r

/-- The error is one that the node itself may raise: it names the variable that is not defined, or
the operator that does not like its operands. -/
def RuntimeError.ArisesAt (x : RuntimeError) (n : Expr) : Prop :=
  x.fault = .undefinedVariable ∧ n.NamedBy x.token ∨
    x.fault ≠ .undefinedVariable ∧ n.OperatedBy x.token

/-! ### The tokens of nodes -/

/-- The tokens of a part of an expression are tokens of the expression. -/
theorem Expr.mem_tokens_of_mem_nodes {e n : Expr} (hn : n ∈ e.nodes) {t : Token}
    (ht : t ∈ n.tokens) : t ∈ e.tokens := by
  induction e with
  | literal v => exact List.mem_singleton.mp hn ▸ ht
  | name t => exact List.mem_singleton.mp hn ▸ ht
  | grouping e ih =>
    obtain rfl | hn := List.mem_cons.mp hn
    · exact ht
    · exact ih hn
  | assign t e ih =>
    obtain rfl | hn := List.mem_cons.mp hn
    · exact ht
    · exact List.mem_cons_of_mem _ (ih hn)
  | unary op e ih =>
    obtain rfl | hn := List.mem_cons.mp hn
    · exact ht
    · exact List.mem_cons_of_mem _ (ih hn)
  | binary l op r ihl ihr | logical l op r ihl ihr =>
    obtain rfl | hn := List.mem_cons.mp hn
    · exact ht
    obtain hn | hn := List.mem_append.mp hn
    · exact List.mem_append_left _ (ihl hn)
    · exact List.mem_append_right _ (List.mem_cons_of_mem _ (ihr hn))

mutual

theorem Stmt.mem_tokens_of_mem_nodes (s : Stmt) {n : Expr} (hn : n ∈ s.nodes) {t : Token}
    (ht : t ∈ n.tokens) : t ∈ s.tokens := by
  cases s with
  | block body =>
    rw [Stmt.nodes] at hn
    rw [Stmt.tokens]
    exact Stmt.mem_tokensOf_of_mem_nodesOf body hn ht
  | expr e =>
    rw [Stmt.nodes] at hn
    rw [Stmt.tokens]
    exact Expr.mem_tokens_of_mem_nodes hn ht
  | print e =>
    rw [Stmt.nodes] at hn
    rw [Stmt.tokens]
    exact Expr.mem_tokens_of_mem_nodes hn ht
  | declare name initial =>
    cases initial with
    | none =>
      rw [Stmt.nodes] at hn
      cases hn
    | some e =>
      rw [Stmt.nodes] at hn
      rw [Stmt.tokens]
      exact List.mem_cons_of_mem _ (Expr.mem_tokens_of_mem_nodes hn ht)
  | ifThen c yes =>
    rw [Stmt.nodes, List.mem_append] at hn
    rw [Stmt.tokens, List.mem_append]
    exact hn.imp (Expr.mem_tokens_of_mem_nodes · ht) (yes.mem_tokens_of_mem_nodes · ht)
  | ifElse c yes no =>
    rw [Stmt.nodes, List.mem_append, List.mem_append] at hn
    rw [Stmt.tokens, List.mem_append, List.mem_append]
    exact hn.imp (Expr.mem_tokens_of_mem_nodes · ht)
      (Or.imp (yes.mem_tokens_of_mem_nodes · ht) (no.mem_tokens_of_mem_nodes · ht))
  | loop c body =>
    rw [Stmt.nodes, List.mem_append] at hn
    rw [Stmt.tokens, List.mem_append]
    exact hn.imp (Expr.mem_tokens_of_mem_nodes · ht) (body.mem_tokens_of_mem_nodes · ht)

theorem Stmt.mem_tokensOf_of_mem_nodesOf (ss : List Stmt) {n : Expr} (hn : n ∈ Stmt.nodesOf ss)
    {t : Token} (ht : t ∈ n.tokens) : t ∈ Stmt.tokensOf ss := by
  cases ss with
  | nil =>
    rw [Stmt.nodesOf] at hn
    cases hn
  | cons s ss =>
    rw [Stmt.nodesOf, List.mem_append] at hn
    rw [Stmt.tokensOf, List.mem_append]
    exact hn.imp (s.mem_tokens_of_mem_nodes · ht) (Stmt.mem_tokensOf_of_mem_nodesOf ss · ht)

end

/-- The token of an error is that of the node it arises at. -/
theorem RuntimeError.ArisesAt.mem_tokens {x : RuntimeError} {n : Expr} (h : x.ArisesAt n) :
    x.token ∈ n.tokens := by
  obtain ⟨-, rfl | ⟨e, rfl⟩⟩ | ⟨-, ⟨e, rfl⟩ | ⟨l, r, rfl⟩⟩ := h
  · exact List.mem_singleton_self _
  · exact List.mem_cons_self
  · exact List.mem_cons_self
  · exact List.mem_append_right _ List.mem_cons_self

/-! ### Operators name themselves -/

namespace Operator

variable {op : Token} {x : RuntimeError}

theorem of_faultAt {α : Type} {f : RuntimeFault}
    (h : (faultAt op f : Except RuntimeError α) = .error x) (hf : f ≠ .undefinedVariable) :
    x.fault ≠ .undefinedVariable ∧ x.token = op := by
  cases h
  exact ⟨hf, rfl⟩

theorem unary_names {v : Value} (hx : unary op v = .error x) :
    x.fault ≠ .undefinedVariable ∧ x.token = op := by
  unfold unary at hx
  split at hx
  · split at hx
    · cases hx
    · exact of_faultAt hx nofun
  · cases hx
  · exact of_faultAt hx nofun

theorem numeric_names {a b : Float} (hx : numeric op a b = .error x) :
    x.fault ≠ .undefinedVariable ∧ x.token = op := by
  unfold numeric at hx
  split at hx
  case h_9 => exact of_faultAt hx nofun
  all_goals cases hx

theorem binary_names {v w : Value} (hx : binary op v w = .error x) :
    x.fault ≠ .undefinedVariable ∧ x.token = op := by
  unfold binary at hx
  split at hx
  · cases hx
  · cases hx
  · split at hx
    · exact numeric_names hx
    · split at hx
      · cases hx
      · exact of_faultAt hx nofun
    · split at hx
      · exact of_faultAt hx nofun
      · exact of_faultAt hx nofun

/-- A logical operator in its place raises nothing. -/
theorem decides_ne_error (h : op.kind ∈ Kind.logicalOperators) (v : Value) :
    decides op v ≠ .error x := by
  intro hx
  refine decides_known h hx ?_
  unfold decides at hx
  split at hx
  · cases hx
  · cases hx
  · exact fault_of_faultAt hx

end Operator

/-! ### Trees -/

section

variable {x : RuntimeError} {n : Expr}

theorem arisesAt_named {t : Token} (h : n.NamedBy t) :
    RuntimeError.ArisesAt ⟨.undefinedVariable, t⟩ n :=
  .inl ⟨rfl, h⟩

theorem arisesAt_operated {op : Token} (h : n.OperatedBy op)
    (hx : x.fault ≠ .undefinedVariable ∧ x.token = op) : x.ArisesAt n := by
  obtain ⟨hfault, rfl⟩ := hx
  exact .inr ⟨hfault, h⟩

end

/-- A node of a part of the tree is a node of the tree. -/
theorem exists_node_mono {x : RuntimeError} {ns ms : List Expr} (h : ∃ n ∈ ns, x.ArisesAt n)
    (hsub : ∀ n ∈ ns, n ∈ ms) : ∃ n ∈ ms, x.ArisesAt n := by
  obtain ⟨n, hn, hx⟩ := h
  exact ⟨n, hsub n hn, hx⟩

/-- **What a well-shaped expression may raise arises at one of its nodes.** -/
theorem Expr.exists_node {e : Expr} (h : e.Shaped) {x : RuntimeError} (hx : e.MayRaise x) :
    ∃ n ∈ e.nodes, x.ArisesAt n := by
  induction e with
  | literal v => cases hx
  | grouping e ih => exact exists_node_mono (ih h hx) fun n hn => List.mem_cons_of_mem _ hn
  | name t =>
    cases hx
    exact ⟨_, List.mem_singleton_self _, arisesAt_named (.inl rfl)⟩
  | assign t e ih =>
    obtain hx | rfl := hx
    · exact exists_node_mono (ih h.2 hx) fun n hn => List.mem_cons_of_mem _ hn
    · exact ⟨_, List.mem_cons_self, arisesAt_named (.inr ⟨e, rfl⟩)⟩
  | unary op e ih =>
    obtain hx | ⟨v, hx⟩ := hx
    · exact exists_node_mono (ih h.2.1 hx) fun n hn => List.mem_cons_of_mem _ hn
    · exact ⟨_, List.mem_cons_self, arisesAt_operated (.inl ⟨e, rfl⟩) (Operator.unary_names hx)⟩
  | binary l op r ihl ihr =>
    obtain ⟨-, hl, hr, -⟩ := h
    obtain hx | hx | ⟨v, w, hx⟩ := hx
    · refine exists_node_mono (ihl hl hx) fun n hn => ?_
      exact List.mem_cons_of_mem _ (List.mem_append_left _ hn)
    · refine exists_node_mono (ihr hr hx) fun n hn => ?_
      exact List.mem_cons_of_mem _ (List.mem_append_right _ hn)
    · exact ⟨_, List.mem_cons_self, arisesAt_operated (.inr ⟨l, r, rfl⟩) (Operator.binary_names hx)⟩
  | logical l op r ihl ihr =>
    obtain ⟨hop, hl, hr, -⟩ := h
    obtain hx | hx | ⟨v, hx⟩ := hx
    · refine exists_node_mono (ihl hl hx) fun n hn => ?_
      exact List.mem_cons_of_mem _ (List.mem_append_left _ hn)
    · refine exists_node_mono (ihr hr hx) fun n hn => ?_
      exact List.mem_cons_of_mem _ (List.mem_append_right _ hn)
    · exact absurd hx (Operator.decides_ne_error hop v)

theorem Stmt.mem_nodesOf {ss : List Stmt} {s : Stmt} (hs : s ∈ ss) :
    ∀ n ∈ s.nodes, n ∈ Stmt.nodesOf ss := by
  intro n hn
  induction ss with
  | nil => cases hs
  | cons s' ss ih =>
    rw [Stmt.nodesOf, List.mem_append]
    obtain rfl | hs := List.mem_cons.mp hs
    · exact .inl hn
    · exact .inr (ih hs)

mutual

/-- **What a well-shaped statement may raise arises at one of its nodes.** -/
theorem Stmt.exists_node (s : Stmt) (h : s.Shaped) {x : RuntimeError} (hx : s.MayRaise x) :
    ∃ n ∈ s.nodes, x.ArisesAt n := by
  cases s with
  | block body =>
    rw [Stmt.Shaped] at h
    rw [Stmt.MayRaise] at hx
    rw [Stmt.nodes]
    obtain ⟨s, hs, hx⟩ := Stmt.exists_node_of_each body h hx
    exact exists_node_mono hx (Stmt.mem_nodesOf hs)
  | expr e =>
    rw [Stmt.Shaped] at h
    rw [Stmt.MayRaise] at hx
    exact Expr.exists_node h hx
  | print e =>
    rw [Stmt.Shaped] at h
    rw [Stmt.MayRaise] at hx
    exact Expr.exists_node h hx
  | declare t initial =>
    cases initial with
    | none =>
      rw [Stmt.MayRaise] at hx
      exact hx.elim
    | some e =>
      rw [Stmt.Shaped] at h
      rw [Stmt.MayRaise] at hx
      exact Expr.exists_node h.2 hx
  | ifThen c yes =>
    rw [Stmt.Shaped] at h
    rw [Stmt.MayRaise] at hx
    rw [Stmt.nodes]
    obtain hx | hx := hx
    · exact exists_node_mono (Expr.exists_node h.1 hx) fun n => List.mem_append_left _
    · exact exists_node_mono (Stmt.exists_node yes h.2.1 hx) fun n => List.mem_append_right _
  | ifElse c yes no =>
    rw [Stmt.Shaped] at h
    rw [Stmt.MayRaise] at hx
    rw [Stmt.nodes]
    obtain ⟨hc, ⟨hyes, -⟩, hno, -⟩ := h
    obtain hx | hx | hx := hx
    · exact exists_node_mono (Expr.exists_node hc hx) fun n => List.mem_append_left _
    · refine exists_node_mono (Stmt.exists_node yes hyes hx) fun n hn => ?_
      exact List.mem_append_right _ (List.mem_append_left _ hn)
    · refine exists_node_mono (Stmt.exists_node no hno hx) fun n hn => ?_
      exact List.mem_append_right _ (List.mem_append_right _ hn)
  | loop c body =>
    rw [Stmt.Shaped] at h
    rw [Stmt.MayRaise] at hx
    rw [Stmt.nodes]
    obtain hx | hx := hx
    · exact exists_node_mono (Expr.exists_node h.1 hx) fun n => List.mem_append_left _
    · exact exists_node_mono (Stmt.exists_node body h.2.1 hx) fun n => List.mem_append_right _

theorem Stmt.exists_node_of_each (ss : List Stmt) (h : Stmt.ShapedEach ss) {x : RuntimeError}
    (hx : Stmt.MayRaiseEach ss x) : ∃ s ∈ ss, ∃ n ∈ s.nodes, x.ArisesAt n := by
  cases ss with
  | nil =>
    rw [Stmt.MayRaiseEach] at hx
    exact hx.elim
  | cons s ss =>
    rw [Stmt.ShapedEach] at h
    rw [Stmt.MayRaiseEach] at hx
    obtain hx | hx := hx
    · exact ⟨s, List.mem_cons_self, Stmt.exists_node s h.1 hx⟩
    · obtain ⟨s', hs', hx⟩ := Stmt.exists_node_of_each ss h.2 hx
      exact ⟨s', List.mem_cons_of_mem _ hs', hx⟩

end

end Lox
