import Lox.Tree

/-!
# The dump of a tree

A tree is dumped on one line with every node in brackets, its operator or the word for its kind
first: `(print (+ (- 1) 2))`. Names and literals stand without brackets, and a text is dumped as it
is, without quotes.
-/

namespace Lox

/-- A node: brackets around a head and its parts, with a blank before each part. -/
def Tree.bracketed (head : String) (parts : List String) : String :=
  "(" ++ head ++ parts.foldr (fun part text => " " ++ part ++ text) ")"

/-- The dump of an expression. -/
def Expr.dump : Expr → String
  | .literal v => v.text
  | .grouping e => Tree.bracketed "group" [e.dump]
  | .name t => t.lexeme
  | .assign t e => Tree.bracketed "assign" [t.lexeme, e.dump]
  | .unary op e => Tree.bracketed op.lexeme [e.dump]
  | .binary l op r => Tree.bracketed op.lexeme [l.dump, r.dump]
  | .logical l op r => Tree.bracketed op.lexeme [l.dump, r.dump]

mutual

/-- The dump of a statement. -/
def Stmt.dump : Stmt → String
  | .block body => Tree.bracketed "block" (Stmt.dumpEach body)
  | .expr e => Tree.bracketed ";" [e.dump]
  | .print e => Tree.bracketed "print" [e.dump]
  | .declare t none => Tree.bracketed "var" [t.lexeme]
  | .declare t (some e) => Tree.bracketed "var" [t.lexeme, e.dump]
  | .ifThen c yes => Tree.bracketed "if" [c.dump, yes.dump]
  | .ifElse c yes no => Tree.bracketed "if" [c.dump, yes.dump, no.dump]
  | .loop c body => Tree.bracketed "while" [c.dump, body.dump]

/-- The dumps of the statements of a list. -/
def Stmt.dumpEach : List Stmt → List String
  | [] => []
  | s :: ss => s.dump :: Stmt.dumpEach ss

end

end Lox
