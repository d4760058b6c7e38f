import Lox.Proofs.Grammar.Basic

/-!
# The expressions of a derivation

A derivation of statements holds derivations of expressions.  `expressions` lists them in the order
of their tokens, and `mapExpr` puts others in their places and leaves all else as it is.

Faults are a matter of the expressions alone (`Declaration.faultsOf_eq_flatMap`).  Expressions with
the same trees give statements with the same trees (`Declaration.trees_mapExprs`), and other
expressions do not change which `if` an `else` belongs to (`Declaration.allNear_mapExprs`).
-/

namespace Lox

namespace Grammar

open scoped List

/-! ### Listing them -/

def Variable.expressions (v : Variable) : List (Expression .assignment) :=
  (v.initial.map Prod.snd).toList

def Initial.expressions : Initial → List (Expression .assignment)
  | none _ => []
  | declare v => v.expressions
  | expr e _ => [e]

def Header.expressions (h : Header) : List (Expression .assignment) :=
  h.initial.expressions ++ (h.condition.toList ++ h.increment.toList)

mutual

/-- The expressions of a statement, in order. -/
def Statement.expressions : Statement → List (Expression .assignment)
  | .expr e _ => [e]
  | .print _ e _ => [e]
  | .block _ body _ => Declaration.expressionsOf body
  | .ifThen _ c yes => c.expr :: yes.expressions
  | .ifElse _ c yes _ no => c.expr :: (yes.expressions ++ no.expressions)
  | .whileLoop _ c body => c.expr :: body.expressions
  | .forLoop _ header body => header.expressions ++ body.expressions

def Declaration.expressions : Declaration → List (Expression .assignment)
  | .declare v => v.expressions
  | .statement s => s.expressions

def Declaration.expressionsOf : List Declaration → List (Expression .assignment)
  | [] => []
  | d :: ds => d.expressions ++ Declaration.expressionsOf ds

end

/-! ### Putting others in their places -/

section

variable (f : Expression .assignment → Expression .assignment)

def Variable.mapExpr (v : Variable) : Variable :=
  { v with initial := v.initial.map fun p => (p.1, f p.2) }

def Initial.mapExpr : Initial → Initial
  | none semicolon => none semicolon
  | declare v => declare (v.mapExpr f)
  | expr e semicolon => expr (f e) semicolon

def Header.mapExpr (h : Header) : Header :=
  { h with
    initial := h.initial.mapExpr f
    condition := h.condition.map f
    increment := h.increment.map f }

def Condition.mapExpr (c : Condition) : Condition := { c with expr := f c.expr }

mutual

/-- The statement with other expressions in the same places. -/
def Statement.mapExpr : Statement → Statement
  | .expr e semicolon => .expr (f e) semicolon
  | .print printKw e semicolon => .print printKw (f e) semicolon
  | .block lbrace body rbrace => .block lbrace (Declaration.mapExprs body) rbrace
  | .ifThen ifKw c yes => .ifThen ifKw (c.mapExpr f) yes.mapExpr
  | .ifElse ifKw c yes elseKw no => .ifElse ifKw (c.mapExpr f) yes.mapExpr elseKw no.mapExpr
  | .whileLoop whileKw c body => .whileLoop whileKw (c.mapExpr f) body.mapExpr
  | .forLoop forKw header body => .forLoop forKw (header.mapExpr f) body.mapExpr

def Declaration.mapExpr : Declaration → Declaration
  | .declare v => .declare (v.mapExpr f)
  | .statement s => .statement s.mapExpr

def Declaration.mapExprs : List Declaration → List Declaration
  | [] => []
  | d :: ds => d.mapExpr :: Declaration.mapExprs ds

end

end

/-! ### The same ones in their places -/

@[simp]
theorem Variable.mapExpr_id (v : Variable) : v.mapExpr id = v := by simp [Variable.mapExpr]

theorem Header.mapExpr_id (h : Header) : h.mapExpr id = h := by
  have hinitial : h.initial.mapExpr id = h.initial := by
    cases h.initial with
    | none semicolon => rfl
    | declare v => exact congrArg Initial.declare v.mapExpr_id
    | expr e semicolon => rfl
  simp [Header.mapExpr, hinitial]

mutual

@[simp]
theorem Statement.mapExpr_id (s : Statement) : s.mapExpr id = s := by
  cases s with
  | expr e semicolon => rfl
  | print printKw e semicolon => rfl
  | block lbrace body rbrace => rw [Statement.mapExpr, Declaration.mapExprs_id body]
  | ifThen ifKw c yes => rw [Statement.mapExpr, yes.mapExpr_id]; rfl
  | ifElse ifKw c yes elseKw no => rw [Statement.mapExpr, yes.mapExpr_id, no.mapExpr_id]; rfl
  | whileLoop whileKw c body => rw [Statement.mapExpr, body.mapExpr_id]; rfl
  | forLoop forKw header body => rw [Statement.mapExpr, header.mapExpr_id, body.mapExpr_id]

@[simp]
theorem Declaration.mapExpr_id (d : Declaration) : d.mapExpr id = d := by
  cases d with
  | declare v => exact congrArg Declaration.declare v.mapExpr_id
  | statement s => exact congrArg Declaration.statement s.mapExpr_id

@[simp]
theorem Declaration.mapExprs_id (ds : List Declaration) : Declaration.mapExprs id ds = ds := by
  cases ds with
  | nil => rfl
  | cons d ds => rw [Declaration.mapExprs, d.mapExpr_id, Declaration.mapExprs_id ds]

end

/-! ### Faults -/

theorem optionalFaults_eq_flatMap (o : Option (Expression .assignment)) :
    optionalFaults o = o.toList.flatMap Expression.faults := by
  cases o with
  | none => rfl
  | some e => exact (List.flatMap_singleton ..).symm

theorem Initial.faults_eq_flatMap (i : Initial) :
    i.faults = i.expressions.flatMap Expression.faults := by
  cases i with
  | none semicolon => rfl
  | declare v => exact optionalFaults_eq_flatMap _
  | expr e semicolon => exact (List.flatMap_singleton ..).symm

theorem Header.faults_eq_flatMap (h : Header) :
    h.faults = h.expressions.flatMap Expression.faults := by
  rw [Header.faults, Header.expressions, List.flatMap_append, List.flatMap_append,
    Initial.faults_eq_flatMap, optionalFaults_eq_flatMap, optionalFaults_eq_flatMap]

mutual

theorem Statement.faults_eq_flatMap (s : Statement) :
    s.faults = s.expressions.flatMap Expression.faults := by
  cases s with
  | expr e semicolon => simp [Statement.faults, Statement.expressions]
  | print printKw e semicolon => simp [Statement.faults, Statement.expressions]
  | block lbrace body rbrace => exact Declaration.faultsOf_eq_flatMap body
  | ifThen ifKw c yes =>
    simp [Statement.faults, Statement.expressions, yes.faults_eq_flatMap]
  | ifElse ifKw c yes elseKw no =>
    simp [Statement.faults, Statement.expressions, yes.faults_eq_flatMap, no.faults_eq_flatMap]
  | whileLoop whileKw c body =>
    simp [Statement.faults, Statement.expressions, body.faults_eq_flatMap]
  | forLoop forKw header body =>
    simp [Statement.faults, Statement.expressions, header.faults_eq_flatMap,
      body.faults_eq_flatMap]

theorem Declaration.faults_eq_flatMap (d : Declaration) :
    d.faults = d.expressions.flatMap Expression.faults := by
  cases d with
  | declare v => exact optionalFaults_eq_flatMap _
  | statement s => exact s.faults_eq_flatMap

/-- **The faults of declarations are those of their expressions.** -/
theorem Declaration.faultsOf_eq_flatMap (ds : List Declaration) :
    Declaration.faultsOf ds = (Declaration.expressionsOf ds).flatMap Expression.faults := by
  cases ds with
  | nil => rfl
  | cons d ds =>
    simp [Declaration.faultsOf, Declaration.expressionsOf, d.faults_eq_flatMap,
      Declaration.faultsOf_eq_flatMap ds]

end

section

variable {f : Expression .assignment → Expression .assignment}

/-! ### Listing what was put in their places -/

@[simp]
theorem Variable.expressions_mapExpr (v : Variable) :
    (v.mapExpr f).expressions = v.expressions.map f := by
  rw [Variable.expressions, Variable.mapExpr, Variable.expressions]
  cases v.initial <;> rfl

theorem Header.expressions_mapExpr (h : Header) :
    (h.mapExpr f).expressions = h.expressions.map f := by
  have hinitial : (h.initial.mapExpr f).expressions = h.initial.expressions.map f := by
    cases h.initial with
    | none semicolon => rfl
    | declare v => exact v.expressions_mapExpr
    | expr e semicolon => rfl
  simp only [Header.expressions, Header.mapExpr, hinitial, Option.toList_map, List.map_append]

mutual

@[simp]
theorem Statement.expressions_mapExpr (s : Statement) :
    (s.mapExpr f).expressions = s.expressions.map f := by
  cases s with
  | expr e semicolon => rfl
  | print printKw e semicolon => rfl
  | block lbrace body rbrace => exact Declaration.expressionsOf_mapExprs body
  | ifThen ifKw c yes =>
    simp [Statement.mapExpr, Statement.expressions, Condition.mapExpr, yes.expressions_mapExpr]
  | ifElse ifKw c yes elseKw no =>
    simp [Statement.mapExpr, Statement.expressions, Condition.mapExpr, yes.expressions_mapExpr,
      no.expressions_mapExpr]
  | whileLoop whileKw c body =>
    simp [Statement.mapExpr, Statement.expressions, Condition.mapExpr, body.expressions_mapExpr]
  | forLoop forKw header body =>
    simp [Statement.mapExpr, Statement.expressions, header.expressions_mapExpr,
      body.expressions_mapExpr]

@[simp]
theorem Declaration.expressions_mapExpr (d : Declaration) :
    (d.mapExpr f).expressions = d.expressions.map f := by
  cases d with
  | declare v => exact v.expressions_mapExpr
  | statement s => exact s.expressions_mapExpr

theorem Declaration.expressionsOf_mapExprs (ds : List Declaration) :
    Declaration.expressionsOf (Declaration.mapExprs f ds) =
      (Declaration.expressionsOf ds).map f := by
  cases ds with
  | nil => rfl
  | cons d ds =>
    simp [Declaration.mapExprs, Declaration.expressionsOf, d.expressions_mapExpr,
      Declaration.expressionsOf_mapExprs ds]

end

/-! ### Tokens -/

section Tokens

variable (hf : ∀ e, (f e).tokens <+ e.tokens)

include hf

theorem Variable.tokens_mapExpr_sublist (v : Variable) : (v.mapExpr f).tokens <+ v.tokens := by
  have hinitial : Variable.tokens.initialTokens (v.mapExpr f).initial <+
      Variable.tokens.initialTokens v.initial := by
    rw [Variable.mapExpr]
    cases v.initial with
    | none => exact .refl _
    | some p => exact (hf p.2).cons_cons _
  exact ((hinitial.append_right _).cons_cons _).cons_cons _

theorem optionalTokens_map_sublist (o : Option (Expression .assignment)) :
    optionalTokens (o.map f) <+ optionalTokens o := by
  cases o with
  | none => exact .refl _
  | some e => exact hf e

theorem Initial.tokens_mapExpr_sublist (i : Initial) : (i.mapExpr f).tokens <+ i.tokens := by
  cases i with
  | none semicolon => exact .refl _
  | declare v => exact v.tokens_mapExpr_sublist hf
  | expr e semicolon => exact (hf e).append_right _

theorem Header.tokens_mapExpr_sublist (h : Header) : (h.mapExpr f).tokens <+ h.tokens :=
  ((h.initial.tokens_mapExpr_sublist hf).append ((optionalTokens_map_sublist hf h.condition).append
    (((optionalTokens_map_sublist hf h.increment).append_right _).cons_cons _))).cons_cons _

theorem Condition.tokens_mapExpr_sublist (c : Condition) : (c.mapExpr f).tokens <+ c.tokens :=
  ((hf c.expr).append_right _).cons_cons _

end Tokens

mutual

theorem Statement.tokens_mapExpr_sublist (hf : ∀ e, (f e).tokens <+ e.tokens) (s : Statement) :
    (s.mapExpr f).tokens <+ s.tokens := by
  cases s with
  | expr e semicolon => exact (hf e).append_right _
  | print printKw e semicolon => exact ((hf e).append_right _).cons_cons _
  | block lbrace body rbrace =>
    exact ((Declaration.tokensOf_mapExprs_sublist hf body).append_right _).cons_cons _
  | ifThen ifKw c yes =>
    exact ((c.tokens_mapExpr_sublist hf).append (yes.tokens_mapExpr_sublist hf)).cons_cons _
  | ifElse ifKw c yes elseKw no =>
    exact ((c.tokens_mapExpr_sublist hf).append ((yes.tokens_mapExpr_sublist hf).append
      ((no.tokens_mapExpr_sublist hf).cons_cons _))).cons_cons _
  | whileLoop whileKw c body =>
    exact ((c.tokens_mapExpr_sublist hf).append (body.tokens_mapExpr_sublist hf)).cons_cons _
  | forLoop forKw header body =>
    exact ((header.tokens_mapExpr_sublist hf).append (body.tokens_mapExpr_sublist hf)).cons_cons _

theorem Declaration.tokens_mapExpr_sublist (hf : ∀ e, (f e).tokens <+ e.tokens)
    (d : Declaration) : (d.mapExpr f).tokens <+ d.tokens := by
  cases d with
  | declare v => exact v.tokens_mapExpr_sublist hf
  | statement s => exact s.tokens_mapExpr_sublist hf

/-- **Deleting tokens of the expressions deletes tokens of the declarations.** -/
theorem Declaration.tokensOf_mapExprs_sublist (hf : ∀ e, (f e).tokens <+ e.tokens)
    (ds : List Declaration) :
    Declaration.tokensOf (Declaration.mapExprs f ds) <+ Declaration.tokensOf ds := by
  cases ds with
  | nil => exact .refl _
  | cons d ds =>
    exact (d.tokens_mapExpr_sublist hf).append (Declaration.tokensOf_mapExprs_sublist hf ds)

end

/-! ### Trees -/

theorem Variable.tree_mapExpr (hf : ∀ e, (f e).tree = e.tree) (v : Variable) :
    (v.mapExpr f).tree = v.tree := by
  simp [Variable.tree, Variable.mapExpr, Function.comp_def, hf]

theorem Header.tree_mapExpr (hf : ∀ e, (f e).tree = e.tree) (h : Header) (body : Stmt) :
    (h.mapExpr f).tree body = h.tree body := by
  have hinitial : (h.initial.mapExpr f).tree = h.initial.tree := by
    cases h.initial with
    | none semicolon => rfl
    | declare v => exact congrArg some (v.tree_mapExpr hf)
    | expr e semicolon => simp [Initial.mapExpr, Initial.tree, hf]
  rw [Header.tree_eq_countingLoop, Header.tree_eq_countingLoop]
  simp [Header.mapExpr, hinitial, Function.comp_def, hf]

mutual

theorem Statement.tree_mapExpr (hf : ∀ e, (f e).tree = e.tree) (s : Statement) :
    (s.mapExpr f).tree = s.tree := by
  cases s with
  | expr e semicolon => simp [Statement.mapExpr, Statement.tree, hf]
  | print printKw e semicolon => simp [Statement.mapExpr, Statement.tree, hf]
  | block lbrace body rbrace =>
    simp [Statement.mapExpr, Statement.tree, Declaration.trees_mapExprs hf body]
  | ifThen ifKw c yes =>
    simp [Statement.mapExpr, Statement.tree, Condition.mapExpr, hf, yes.tree_mapExpr hf]
  | ifElse ifKw c yes elseKw no =>
    simp [Statement.mapExpr, Statement.tree, Condition.mapExpr, hf, yes.tree_mapExpr hf,
      no.tree_mapExpr hf]
  | whileLoop whileKw c body =>
    simp [Statement.mapExpr, Statement.tree, Condition.mapExpr, hf, body.tree_mapExpr hf]
  | forLoop forKw header body =>
    simp [Statement.mapExpr, Statement.tree, header.tree_mapExpr hf, body.tree_mapExpr hf]

theorem Declaration.tree_mapExpr (hf : ∀ e, (f e).tree = e.tree) (d : Declaration) :
    (d.mapExpr f).tree = d.tree := by
  cases d with
  | declare v => exact v.tree_mapExpr hf
  | statement s => exact s.tree_mapExpr hf

/-- **Expressions with the same trees give statements with the same trees.** -/
theorem Declaration.trees_mapExprs (hf : ∀ e, (f e).tree = e.tree) (ds : List Declaration) :
    Declaration.trees (Declaration.mapExprs f ds) = Declaration.trees ds := by
  cases ds with
  | nil => rfl
  | cons d ds =>
    simp [Declaration.mapExprs, Declaration.trees, d.tree_mapExpr hf,
      Declaration.trees_mapExprs hf ds]

end

/-! ### Near `else`s -/

@[simp]
theorem Statement.endsOpen_mapExpr (s : Statement) : (s.mapExpr f).endsOpen = s.endsOpen := by
  cases s with
  | expr e semicolon => rfl
  | print printKw e semicolon => rfl
  | block lbrace body rbrace => rfl
  | ifThen ifKw c yes => rfl
  | ifElse ifKw c yes elseKw no => exact no.endsOpen_mapExpr
  | whileLoop whileKw c body => exact body.endsOpen_mapExpr
  | forLoop forKw header body => exact body.endsOpen_mapExpr

mutual

theorem Statement.near_mapExpr {s : Statement} (h : s.Near) : (s.mapExpr f).Near := by
  cases s with
  | expr e semicolon => trivial
  | print printKw e semicolon => trivial
  | block lbrace body rbrace => exact Declaration.allNear_mapExprs h
  | ifThen ifKw c yes => exact Statement.near_mapExpr (s := yes) h
  | ifElse ifKw c yes elseKw no =>
    exact ⟨yes.endsOpen_mapExpr.trans h.1, Statement.near_mapExpr h.2.1,
      Statement.near_mapExpr h.2.2⟩
  | whileLoop whileKw c body => exact Statement.near_mapExpr (s := body) h
  | forLoop forKw header body => exact Statement.near_mapExpr (s := body) h

theorem Declaration.near_mapExpr {d : Declaration} (h : d.Near) : (d.mapExpr f).Near := by
  cases d with
  | declare v => trivial
  | statement s => exact Statement.near_mapExpr (s := s) h

theorem Declaration.allNear_mapExprs {ds : List Declaration} (h : Declaration.AllNear ds) :
    Declaration.AllNear (Declaration.mapExprs f ds) := by
  cases ds with
  | nil => trivial
  | cons d ds => exact ⟨Declaration.near_mapExpr h.1, Declaration.allNear_mapExprs h.2⟩

end

end

end Grammar

end Lox
