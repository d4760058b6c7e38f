import Lox.Token
import Lox.Value

/-!
# Syntax trees

Expressions and statements. A node keeps the token of its name or operator, which says what to do,
and where to complain. There is no node for a counting loop: it is written with the others.
-/

namespace Lox

/-- An expression. -/
inductive Expr where
  | literal (value : Value)
  | grouping (inner : Expr)
  | name (token : Token)
  | assign (target : Token) (value : Expr)
  | unary (op : Token) (right : Expr)
  | binary (left : Expr) (op : Token) (right : Expr)
  | logical (left : Expr) (op : Token) (right : Expr)
deriving DecidableEq

/-- A statement. -/
inductive Stmt where
  | block (body : List Stmt)
  | expr (e : Expr)
  | print (e : Expr)
  | declare (name : Token) (initial : Option Expr)
  | ifThen (condition : Expr) (yes : Stmt)
  | ifElse (condition : Expr) (yes no : Stmt)
  | loop (condition : Expr) (body : Stmt)

end Lox
