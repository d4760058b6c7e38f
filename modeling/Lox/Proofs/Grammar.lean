import Lox.Parser.Reply
import Lox.Parser.Expression

/-!
# The grammar

The grammar of the language, written as its derivations.  A derivation is a tree of productions with
the tokens of a text at its leaves; the type of the derivation says what it derives.

    declaration → "var" IDENTIFIER ( "=" assignment )? ";" | statement
    statement   → assignment ";" | "print" assignment ";" | "{" declaration* "}"
                | "if" "(" assignment ")" statement ( "else" statement )?
                | "while" "(" assignment ")" statement
                | "for" "(" initial assignment? ";" assignment? ")" statement
    initial     → ";" | "var" IDENTIFIER ( "=" assignment )? ";" | assignment ";"
    assignment  → or "=" assignment | or
    or          → or "or" and | and                         (and so on, level by level, down to)
    factor      → factor ( "/" | "*" ) unary | unary
    unary       → ( "!" | "-" ) unary | primary
    primary     → LITERAL | IDENTIFIER | "(" assignment ")"

In the language itself only an identifier may stand to the left of `=`.  A derivation where this is
so is *proper*; the others are kept because a reader can go on after such a mistake.

The grammar is ambiguous in one place: a second `if` inside the first branch of another.  A
derivation has its `else`s *near* when each of them belongs to the nearest `if` before it that has
none.

Every derivation has its tokens, its tree, and the faults that it contains.
-/

namespace Lox

namespace Grammar

/-! ### Tokens at the leaves -/

/-- A token of the given kind. -/
abbrev Terminal (k : Kind) : Type := { t : Token // t.kind = k }

/-- A name. -/
abbrev Identifier : Type := { t : Token // ∃ name, t.kind = .identifier name }

/-- The kinds of the operators of a level. -/
def operators : Level → List Kind
  | .or => [.keyword .orKw]
  | .and => [.keyword .andKw]
  | .equality => [.symbol .bangEqual, .symbol .equalEqual]
  | .comparison => [.symbol .greater, .symbol .greaterEqual, .symbol .less, .symbol .lessEqual]
  | .term => [.symbol .minus, .symbol .plus]
  | .factor => [.symbol .slash, .symbol .star]

/-- The kinds of the prefix operators. -/
def prefixes : List Kind := [.symbol .bang, .symbol .minus]

/-- The kinds that are literals, with their values. -/
inductive Denotes : Kind → Value → Prop
  | falseKw : Denotes (.keyword .falseKw) (.bool false)
  | trueKw : Denotes (.keyword .trueKw) (.bool true)
  | nilKw : Denotes (.keyword .nilKw) .nil
  | number (x : Float) : Denotes (.number x) (.number x)
  | string (s : String) : Denotes (.string s) (.string s)

/-! ### Derivations of expressions -/

/-- What an expression is derived from. -/
inductive Rank where
  | assignment
  | level (l : Level)
  | unary
  | primary

/-- What the operands of a level are derived from. -/
def tighter : Level → Rank
  | .or => .level .and
  | .and => .level .equality
  | .equality => .level .comparison
  | .comparison => .level .term
  | .term => .level .factor
  | .factor => .unary

/-- A derivation of an expression. -/
inductive Expression : Rank → Type
  | plain (e : Expression (.level .or)) : Expression .assignment
  | assign (left : Expression (.level .or)) (equals : Terminal (.symbol .equal))
      (value : Expression .assignment) : Expression .assignment
  | operand {l : Level} (e : Expression (tighter l)) : Expression (.level l)
  | operation {l : Level} (left : Expression (.level l)) (op : { t : Token // t.kind ∈ operators l })
      (right : Expression (tighter l)) : Expression (.level l)
  | primary (e : Expression .primary) : Expression .unary
  | unary (op : { t : Token // t.kind ∈ prefixes }) (right : Expression .unary) : Expression .unary
  | literal (t : Token) (v : Value) (h : Denotes t.kind v) : Expression .primary
  | name (t : Identifier) : Expression .primary
  | grouping (lparen : Terminal (.symbol .leftParen)) (inner : Expression .assignment)
      (rparen : Terminal (.symbol .rightParen)) : Expression .primary

namespace Expression

variable {r : Rank}

def tokens : {r : Rank} → Expression r → List Token
  | _, plain e => e.tokens
  | _, assign left equals value => left.tokens ++ equals.1 :: value.tokens
  | _, operand e => e.tokens
  | _, operation left op right => left.tokens ++ op.1 :: right.tokens
  | _, primary e => e.tokens
  | _, unary op right => op.1 :: right.tokens
  | _, literal t _ _ => [t]
  | _, name t => [t.1]
  | _, grouping lparen inner rparen => lparen.1 :: inner.tokens ++ [rparen.1]

/-- The name that an expression is, if it is nothing but a name. -/
def name? : {r : Rank} → Expression r → Option Token
  | _, plain e => e.name?
  | _, operand e => e.name?
  | _, primary e => e.name?
  | _, name t => some t.1
  | _, _ => none

/-- The tree of an expression.  Operators of the loosest two levels are logical ones.  What is
assigned to something other than a name is left out. -/
def tree : {r : Rank} → Expression r → Expr
  | _, plain e => e.tree
  | _, assign left _ value =>
    match left.name? with
    | some t => .assign t value.tree
    | none => left.tree
  | _, operand e => e.tree
  | _, operation (l := .or) left op right => .logical left.tree op.1 right.tree
  | _, operation (l := .and) left op right => .logical left.tree op.1 right.tree
  | _, operation left op right => .binary left.tree op.1 right.tree
  | _, primary e => e.tree
  | _, unary op right => .unary op.1 right.tree
  | _, literal _ v _ => .literal v
  | _, name t => .name t.1
  | _, grouping _ inner _ => .grouping inner.tree

/-- Only names are assigned to. -/
def Proper : {r : Rank} → Expression r → Prop
  | _, plain e => e.Proper
  | _, assign left _ value => (∃ t, left.name? = some t) ∧ value.Proper
  | _, operand e => e.Proper
  | _, operation left _ right => left.Proper ∧ right.Proper
  | _, primary e => e.Proper
  | _, unary _ right => right.Proper
  | _, literal _ _ _ => True
  | _, name _ => True
  | _, grouping _ inner _ => inner.Proper

/-- The faults of an expression: one for every `=` without a name to its left, after those of its
two sides. -/
def faults : {r : Rank} → Expression r → List Failure
  | _, plain e => e.faults
  | _, assign left equals value =>
    left.faults ++ (value.faults ++
      match left.name? with
      | some _ => []
      | none => [⟨.assignmentTarget, some equals.1⟩])
  | _, operand e => e.faults
  | _, operation left _ right => left.faults ++ right.faults
  | _, primary e => e.faults
  | _, unary _ right => right.faults
  | _, literal _ _ _ => []
  | _, name _ => []
  | _, grouping _ inner _ => inner.faults

end Expression

/-! ### Derivations of statements -/

/-- A derivation of a variable declaration. -/
structure Variable where
  varKw : Terminal (.keyword .varKw)
  name : Identifier
  initial : Option (Terminal (.symbol .equal) × Expression .assignment)
  semicolon : Terminal (.symbol .semicolon)

/-- A derivation of the initial part of a counting loop. -/
inductive Initial where
  | none (semicolon : Terminal (.symbol .semicolon))
  | declare (v : Variable)
  | expr (e : Expression .assignment) (semicolon : Terminal (.symbol .semicolon))

/-- The parts of a counting loop in its parentheses. -/
structure Header where
  lparen : Terminal (.symbol .leftParen)
  initial : Initial
  condition : Option (Expression .assignment)
  semicolon : Terminal (.symbol .semicolon)
  increment : Option (Expression .assignment)
  rparen : Terminal (.symbol .rightParen)

/-- A condition in its parentheses. -/
structure Condition where
  lparen : Terminal (.symbol .leftParen)
  expr : Expression .assignment
  rparen : Terminal (.symbol .rightParen)

mutual

/-- A derivation of a statement. -/
inductive Statement where
  | expr (e : Expression .assignment) (semicolon : Terminal (.symbol .semicolon))
  | print (printKw : Terminal (.keyword .printKw)) (e : Expression .assignment)
      (semicolon : Terminal (.symbol .semicolon))
  | block (lbrace : Terminal (.symbol .leftBrace)) (body : List Declaration)
      (rbrace : Terminal (.symbol .rightBrace))
  | ifThen (ifKw : Terminal (.keyword .ifKw)) (condition : Condition) (yes : Statement)
  | ifElse (ifKw : Terminal (.keyword .ifKw)) (condition : Condition) (yes : Statement)
      (elseKw : Terminal (.keyword .elseKw)) (no : Statement)
  | whileLoop (whileKw : Terminal (.keyword .whileKw)) (condition : Condition) (body : Statement)
  | forLoop (forKw : Terminal (.keyword .forKw)) (header : Header) (body : Statement)

inductive Declaration where
  | declare (v : Variable)
  | statement (s : Statement)

end

/-! ### Their tokens -/

def Variable.tokens (v : Variable) : List Token :=
  v.varKw.1 :: v.name.1 :: (initialTokens v.initial ++ [v.semicolon.1])
where
  initialTokens : Option (Terminal (.symbol .equal) × Expression .assignment) → List Token
    | none => []
    | some (equals, e) => equals.1 :: e.tokens

def Initial.tokens : Initial → List Token
  | none semicolon => [semicolon.1]
  | declare v => v.tokens
  | expr e semicolon => e.tokens ++ [semicolon.1]

def optionalTokens : Option (Expression .assignment) → List Token
  | none => []
  | some e => e.tokens

def Header.tokens (h : Header) : List Token :=
  h.lparen.1 :: (h.initial.tokens ++ (optionalTokens h.condition ++
    h.semicolon.1 :: (optionalTokens h.increment ++ [h.rparen.1])))

def Condition.tokens (c : Condition) : List Token := c.lparen.1 :: (c.expr.tokens ++ [c.rparen.1])

mutual

def Statement.tokens : Statement → List Token
  | .expr e semicolon => e.tokens ++ [semicolon.1]
  | .print printKw e semicolon => printKw.1 :: (e.tokens ++ [semicolon.1])
  | .block lbrace body rbrace => lbrace.1 :: (Declaration.tokensOf body ++ [rbrace.1])
  | .ifThen ifKw c yes => ifKw.1 :: (c.tokens ++ yes.tokens)
  | .ifElse ifKw c yes elseKw no => ifKw.1 :: (c.tokens ++ (yes.tokens ++ elseKw.1 :: no.tokens))
  | .whileLoop whileKw c body => whileKw.1 :: (c.tokens ++ body.tokens)
  | .forLoop forKw header body => forKw.1 :: (header.tokens ++ body.tokens)

def Declaration.tokens : Declaration → List Token
  | .declare v => v.tokens
  | .statement s => s.tokens

def Declaration.tokensOf : List Declaration → List Token
  | [] => []
  | d :: ds => d.tokens ++ Declaration.tokensOf ds

end

/-! ### Their trees -/

def Variable.tree (v : Variable) : Stmt := .declare v.name.1 (v.initial.map fun p => p.2.tree)

/-- The tree of the initial part of a counting loop, if it is not empty. -/
def Initial.tree : Initial → Option Stmt
  | none _ => .none
  | declare v => some v.tree
  | expr e _ => some (.expr e.tree)

/-- What a counting loop does in a round: the increment follows the body in a block of their own. -/
def Header.roundTree (h : Header) (body : Stmt) : Stmt :=
  match h.increment with
  | none => body
  | some e => .block [body, .expr e.tree]

/-- The rounds of a counting loop; a missing condition is true. -/
def Header.loopTree (h : Header) (body : Stmt) : Stmt :=
  match h.condition with
  | none => .loop (.literal (.bool true)) (h.roundTree body)
  | some c => .loop c.tree (h.roundTree body)

/-- The tree of a counting loop: an initial part stands before the rounds in a block around both. -/
def Header.tree (h : Header) (body : Stmt) : Stmt :=
  match h.initial.tree with
  | none => h.loopTree body
  | some s => .block [s, h.loopTree body]

mutual

def Statement.tree : Statement → Stmt
  | .expr e _ => .expr e.tree
  | .print _ e _ => .print e.tree
  | .block _ body _ => .block (Declaration.trees body)
  | .ifThen _ c yes => .ifThen c.expr.tree yes.tree
  | .ifElse _ c yes _ no => .ifElse c.expr.tree yes.tree no.tree
  | .whileLoop _ c body => .loop c.expr.tree body.tree
  | .forLoop _ header body => header.tree body.tree

def Declaration.tree : Declaration → Stmt
  | .declare v => v.tree
  | .statement s => s.tree

def Declaration.trees : List Declaration → List Stmt
  | [] => []
  | d :: ds => d.tree :: Declaration.trees ds

end

/-! ### Their faults -/

def optionalFaults : Option (Expression .assignment) → List Failure
  | none => []
  | some e => e.faults

def Variable.faults (v : Variable) : List Failure := optionalFaults (v.initial.map Prod.snd)

def Initial.faults : Initial → List Failure
  | none _ => []
  | declare v => v.faults
  | expr e _ => e.faults

def Header.faults (h : Header) : List Failure :=
  h.initial.faults ++ (optionalFaults h.condition ++ optionalFaults h.increment)

mutual

def Statement.faults : Statement → List Failure
  | .expr e _ => e.faults
  | .print _ e _ => e.faults
  | .block _ body _ => Declaration.faultsOf body
  | .ifThen _ c yes => c.expr.faults ++ yes.faults
  | .ifElse _ c yes _ no => c.expr.faults ++ (yes.faults ++ no.faults)
  | .whileLoop _ c body => c.expr.faults ++ body.faults
  | .forLoop _ header body => header.faults ++ body.faults

def Declaration.faults : Declaration → List Failure
  | .declare v => v.faults
  | .statement s => s.faults

def Declaration.faultsOf : List Declaration → List Failure
  | [] => []
  | d :: ds => d.faults ++ Declaration.faultsOf ds

end

/-! ### Proper derivations -/

def Variable.Proper (v : Variable) : Prop := ∀ p ∈ v.initial, p.2.Proper

def Initial.Proper : Initial → Prop
  | none _ => True
  | declare v => v.Proper
  | expr e _ => e.Proper

def Header.Proper (h : Header) : Prop :=
  h.initial.Proper ∧ (∀ e ∈ h.condition, e.Proper) ∧ ∀ e ∈ h.increment, e.Proper

mutual

/-- Only names are assigned to in a statement. -/
def Statement.Proper : Statement → Prop
  | .expr e _ => e.Proper
  | .print _ e _ => e.Proper
  | .block _ body _ => Declaration.AllProper body
  | .ifThen _ c yes => c.expr.Proper ∧ yes.Proper
  | .ifElse _ c yes _ no => c.expr.Proper ∧ yes.Proper ∧ no.Proper
  | .whileLoop _ c body => c.expr.Proper ∧ body.Proper
  | .forLoop _ header body => header.Proper ∧ body.Proper

def Declaration.Proper : Declaration → Prop
  | .declare v => v.Proper
  | .statement s => s.Proper

def Declaration.AllProper : List Declaration → Prop
  | [] => True
  | d :: ds => d.Proper ∧ Declaration.AllProper ds

end

/-! ### The branch that an `else` belongs to -/

/-- Whether a statement ends with an `if` that has no `else`, so that one could follow. -/
def Statement.endsOpen : Statement → Bool
  | .ifThen _ _ _ => true
  | .ifElse _ _ _ _ no => no.endsOpen
  | .whileLoop _ _ body => body.endsOpen
  | .forLoop _ _ body => body.endsOpen
  | _ => false

mutual

/-- Every `else` belongs to the nearest `if` before it that has none: no first branch with an `else`
after it ends with an `if` that could have taken it. -/
def Statement.Near : Statement → Prop
  | .expr _ _ => True
  | .print _ _ _ => True
  | .block _ body _ => Declaration.AllNear body
  | .ifThen _ _ yes => yes.Near
  | .ifElse _ _ yes _ no => yes.endsOpen = false ∧ yes.Near ∧ no.Near
  | .whileLoop _ _ body => body.Near
  | .forLoop _ _ body => body.Near

def Declaration.Near : Declaration → Prop
  | .declare _ => True
  | .statement s => s.Near

def Declaration.AllNear : List Declaration → Prop
  | [] => True
  | d :: ds => d.Near ∧ Declaration.AllNear ds

end

/-- A list of tokens is a sentence of the language if it has a proper derivation from declarations.
-/
def Sentence (ts : List Token) : Prop :=
  ∃ ds : List Declaration, Declaration.AllProper ds ∧ Declaration.tokensOf ds = ts

end Grammar

end Lox
