import Lox.Proofs.Grammar.Basic
import Mathlib.Computability.Language
import Mathlib.Order.CompletePartialOrder

/-!
# Phrases

A phrase is the list of tokens of a derivation.  The phrases of each kind are a language, and the
productions of the grammar say which languages are parts of which: a `while` followed by a condition
in parentheses and a statement is a statement, and so on (`while_le_statement` and the like).

No derivation is asked to be proper here, so an expression of the loosest binary level may stand to
the left of `=`; nor are its `else`s asked to be near.  A list of tokens that has a derivation in
this sense is a relaxed sentence.
-/

namespace Lox

namespace Grammar

/-- A list of tokens is a relaxed sentence if it has a derivation from declarations, proper or not.
-/
def RelaxedSentence (ts : List Token) : Prop :=
  ∃ ds : List Declaration, Declaration.tokensOf ds = ts

namespace Phrase

/-! ### Languages -/

def terminal (k : Kind) : Language Token := { ts | ∃ t : Terminal k, [t.1] = ts }

def name : Language Token := { ts | ∃ t : Identifier, [t.1] = ts }

def expression (r : Rank) : Language Token := { ts | ∃ e : Expression r, e.tokens = ts }

/-- What may follow every expression of the rank `r` to make it one of the rank `r'`. -/
def continuation (r r' : Rank) : Language Token :=
  { ts | ∀ e : Expression r, ∃ e' : Expression r', e'.tokens = e.tokens ++ ts }

/-- An expression or nothing. -/
def optional : Language Token := 1 + expression .assignment

/-- A variable declaration without its `var`. -/
def variableTail : Language Token :=
  name * ((1 + terminal (.symbol .equal) * expression .assignment) * terminal (.symbol .semicolon))

def initial : Language Token := { ts | ∃ i : Initial, i.tokens = ts }

def statement : Language Token := { ts | ∃ s : Statement, s.tokens = ts }

/-- A conditional without its `if`. -/
def ifTail : Language Token :=
  terminal (.symbol .leftParen) * (expression .assignment * (terminal (.symbol .rightParen) *
    (statement * (1 + terminal (.keyword .elseKw) * statement))))

/-- A loop without its `while`. -/
def whileTail : Language Token :=
  terminal (.symbol .leftParen) * (expression .assignment * (terminal (.symbol .rightParen) *
    statement))

/-- A counting loop without its `for`. -/
def forTail : Language Token :=
  terminal (.symbol .leftParen) * (initial * (optional * (terminal (.symbol .semicolon) *
    (optional * (terminal (.symbol .rightParen) * statement)))))

def declaration : Language Token := { ts | ∃ d : Declaration, d.tokens = ts }

def program : Language Token := { ts | RelaxedSentence ts }

/-! ### There are phrases of every kind -/

theorem nonempty_mul {L M : Language Token} (hL : Set.Nonempty L) (hM : Set.Nonempty M) :
    Set.Nonempty (L * M : Language Token) := by
  obtain ⟨u, hu⟩ := hL
  obtain ⟨v, hv⟩ := hM
  exact ⟨u ++ v, Language.append_mem_mul hu hv⟩

theorem nonempty_terminal (k : Kind) : Set.Nonempty (terminal k) := ⟨_, ⟨⟨k, "", 0⟩, rfl⟩, rfl⟩

theorem nonempty_expression (r : Rank) : Set.Nonempty (expression r) := by
  let e : Expression .primary := .literal ⟨.keyword .nilKw, "", 0⟩ .nil .nilKw
  let unary : Expression .unary := .primary e
  let or : Expression (.level .or) := .operand (.operand (.operand (.operand (.operand
    (.operand unary)))))
  cases r with
  | assignment => exact ⟨_, .plain or, rfl⟩
  | unary => exact ⟨_, unary, rfl⟩
  | primary => exact ⟨_, e, rfl⟩
  | level l =>
    cases l with
    | or => exact ⟨_, or, rfl⟩
    | and => exact ⟨_, .operand (.operand (.operand (.operand (.operand unary)))), rfl⟩
    | equality => exact ⟨_, .operand (.operand (.operand (.operand unary))), rfl⟩
    | comparison => exact ⟨_, .operand (.operand (.operand unary)), rfl⟩
    | term => exact ⟨_, .operand (.operand unary), rfl⟩
    | factor => exact ⟨_, .operand unary, rfl⟩

theorem nil_mem_continuation (l : Level) : [] ∈ continuation (.level l) (.level l) :=
  fun e => ⟨e, (List.append_nil _).symm⟩

theorem nonempty_statement : Set.Nonempty statement := by
  obtain ⟨-, e, rfl⟩ := nonempty_expression .assignment
  exact ⟨_, .expr e ⟨⟨.symbol .semicolon, "", 0⟩, rfl⟩, rfl⟩

theorem nil_mem_program : [] ∈ program := ⟨[], rfl⟩

/-! ### Productions for expressions -/

theorem cons_mem_mul {t : Token} {k : Kind} (ht : t.kind = k) {L : Language Token} {u : List Token}
    (hu : u ∈ L) : t :: u ∈ terminal k * L :=
  Language.append_mem_mul (a := [t]) ⟨⟨t, ht⟩, rfl⟩ hu

theorem name_le_primary : name ≤ expression .primary := by
  rintro _ ⟨t, rfl⟩
  exact ⟨.name t, rfl⟩

theorem literal_mem_primary {t : Token} {v : Value} (h : Parser.literal? t.kind = some v) :
    [t] ∈ expression .primary :=
  ⟨.literal t v (denotes_iff.mpr h), rfl⟩

theorem grouping_le_primary : terminal (.symbol .leftParen) *
    (expression .assignment * terminal (.symbol .rightParen)) ≤ expression .primary := by
  rintro _ ⟨_, ⟨lparen, rfl⟩, _, ⟨_, ⟨e, rfl⟩, _, ⟨rparen, rfl⟩, rfl⟩, rfl⟩
  exact ⟨.grouping lparen e rparen, rfl⟩

theorem primary_le_unary : expression .primary ≤ expression .unary := by
  rintro _ ⟨e, rfl⟩
  exact ⟨.primary e, rfl⟩

theorem cons_mem_unary {t : Token} (ht : Parser.isUnary t.kind) {u : List Token}
    (hu : u ∈ expression .unary) : t :: u ∈ expression .unary := by
  obtain ⟨e, rfl⟩ := hu
  exact ⟨.unary ⟨t, mem_prefixes_iff.mpr ht⟩ e, rfl⟩

/-- An operator, its right operand and more operators. -/
theorem cons_mem_continuation {l : Level} {t : Token} (ht : Level.of? t.kind = some l)
    {u : List Token}
    (hu : u ∈ expression (tighter l) * continuation (.level l) (.level l)) :
    t :: u ∈ continuation (.level l) (.level l) := by
  obtain ⟨_, ⟨right, rfl⟩, v, hv, rfl⟩ := hu
  intro left
  obtain ⟨e, he⟩ := hv (.operation left ⟨t, mem_operators_iff.mpr ht⟩ right)
  exact ⟨e, by simp [he, Expression.tokens]⟩

theorem operand_mul_continuation_le (l : Level) :
    expression (tighter l) * continuation (.level l) (.level l) ≤ expression (.level l) := by
  rintro _ ⟨_, ⟨e, rfl⟩, v, hv, rfl⟩
  exact hv (.operand e)

theorem optional_equal_le_assigned : 1 + terminal (.symbol .equal) * expression .assignment ≤
    continuation (.level .or) .assignment := by
  rintro _ (rfl | ⟨_, ⟨equals, rfl⟩, _, ⟨value, rfl⟩, rfl⟩) left
  · exact ⟨.plain left, (List.append_nil _).symm⟩
  · exact ⟨.assign left equals value, rfl⟩

theorem or_mul_assigned_le : expression (.level .or) * continuation (.level .or) .assignment ≤
    expression .assignment := by
  rintro _ ⟨_, ⟨left, rfl⟩, v, hv, rfl⟩
  exact hv left

/-! ### Productions for statements -/

/-- A variable declaration. -/
theorem exists_variable {ts : List Token} (h : ts ∈ terminal (.keyword .varKw) * variableTail) :
    ∃ v : Variable, v.tokens = ts := by
  obtain ⟨_, ⟨varKw, rfl⟩, _, ⟨_, ⟨n, rfl⟩, _, ⟨_, hinitial, _, ⟨semicolon, rfl⟩, rfl⟩, rfl⟩,
    rfl⟩ := h
  obtain rfl | ⟨_, ⟨equals, rfl⟩, _, ⟨e, rfl⟩, rfl⟩ := hinitial
  · exact ⟨⟨varKw, n, none, semicolon⟩, rfl⟩
  · exact ⟨⟨varKw, n, some (equals, e), semicolon⟩, rfl⟩

theorem exists_optional {ts : List Token} (h : ts ∈ optional) :
    ∃ o : Option (Expression .assignment), optionalTokens o = ts := by
  obtain rfl | ⟨e, rfl⟩ := h
  · exact ⟨none, rfl⟩
  · exact ⟨some e, rfl⟩

theorem variable_le_initial : terminal (.keyword .varKw) * variableTail ≤ initial := by
  intro ts h
  obtain ⟨v, rfl⟩ := exists_variable h
  exact ⟨.declare v, rfl⟩

theorem semicolon_le_initial : terminal (.symbol .semicolon) ≤ initial := by
  rintro _ ⟨semicolon, rfl⟩
  exact ⟨.none semicolon, rfl⟩

theorem expr_le_initial : expression .assignment * terminal (.symbol .semicolon) ≤ initial := by
  rintro _ ⟨_, ⟨e, rfl⟩, _, ⟨semicolon, rfl⟩, rfl⟩
  exact ⟨.expr e semicolon, rfl⟩

theorem expr_le_statement : expression .assignment * terminal (.symbol .semicolon) ≤ statement := by
  rintro _ ⟨_, ⟨e, rfl⟩, _, ⟨semicolon, rfl⟩, rfl⟩
  exact ⟨.expr e semicolon, rfl⟩

theorem print_le_statement : terminal (.keyword .printKw) *
    (expression .assignment * terminal (.symbol .semicolon)) ≤ statement := by
  rintro _ ⟨_, ⟨printKw, rfl⟩, _, ⟨_, ⟨e, rfl⟩, _, ⟨semicolon, rfl⟩, rfl⟩, rfl⟩
  exact ⟨.print printKw e semicolon, rfl⟩

theorem block_le_statement : terminal (.symbol .leftBrace) *
    (program * terminal (.symbol .rightBrace)) ≤ statement := by
  rintro _ ⟨_, ⟨lbrace, rfl⟩, _, ⟨_, ⟨ds, rfl⟩, _, ⟨rbrace, rfl⟩, rfl⟩, rfl⟩
  exact ⟨.block lbrace ds rbrace, by rw [Statement.tokens]; rfl⟩

theorem if_le_statement : terminal (.keyword .ifKw) * ifTail ≤ statement := by
  rintro _ ⟨_, ⟨ifKw, rfl⟩, _, ⟨_, ⟨lparen, rfl⟩, _, ⟨_, ⟨e, rfl⟩, _, ⟨_, ⟨rparen, rfl⟩, _,
    ⟨_, ⟨yes, rfl⟩, _, hotherwise, rfl⟩, rfl⟩, rfl⟩, rfl⟩, rfl⟩
  obtain rfl | ⟨_, ⟨elseKw, rfl⟩, _, ⟨no, rfl⟩, rfl⟩ := hotherwise
  · exact ⟨.ifThen ifKw ⟨lparen, e, rparen⟩ yes, by simp [Statement.tokens, Condition.tokens]⟩
  · exact ⟨.ifElse ifKw ⟨lparen, e, rparen⟩ yes elseKw no,
      by simp [Statement.tokens, Condition.tokens]⟩

theorem while_le_statement : terminal (.keyword .whileKw) * whileTail ≤ statement := by
  rintro _ ⟨_, ⟨whileKw, rfl⟩, _, ⟨_, ⟨lparen, rfl⟩, _, ⟨_, ⟨e, rfl⟩, _, ⟨_, ⟨rparen, rfl⟩, _,
    ⟨body, rfl⟩, rfl⟩, rfl⟩, rfl⟩, rfl⟩
  exact ⟨.whileLoop whileKw ⟨lparen, e, rparen⟩ body, by simp [Statement.tokens, Condition.tokens]⟩

theorem for_le_statement : terminal (.keyword .forKw) * forTail ≤ statement := by
  rintro _ ⟨_, ⟨forKw, rfl⟩, _, ⟨_, ⟨lparen, rfl⟩, _, ⟨_, ⟨i, rfl⟩, _, ⟨_, hcondition, _,
    ⟨_, ⟨semicolon, rfl⟩, _, ⟨_, hincrement, _, ⟨_, ⟨rparen, rfl⟩, _, ⟨body, rfl⟩, rfl⟩, rfl⟩, rfl⟩,
    rfl⟩, rfl⟩, rfl⟩, rfl⟩
  obtain ⟨condition, rfl⟩ := exists_optional hcondition
  obtain ⟨increment, rfl⟩ := exists_optional hincrement
  exact ⟨.forLoop forKw ⟨lparen, i, condition, semicolon, increment, rparen⟩ body,
    by simp [Statement.tokens, Header.tokens]⟩

theorem variable_le_declaration : terminal (.keyword .varKw) * variableTail ≤ declaration := by
  intro ts h
  obtain ⟨v, rfl⟩ := exists_variable h
  exact ⟨.declare v, by rw [Declaration.tokens]⟩

theorem statement_le_declaration : statement ≤ declaration := by
  rintro _ ⟨s, rfl⟩
  exact ⟨.statement s, by rw [Declaration.tokens]⟩

theorem declaration_mul_program_le : declaration * program ≤ program := by
  rintro _ ⟨_, ⟨d, rfl⟩, _, ⟨ds, rfl⟩, rfl⟩
  exact ⟨d :: ds, by rw [Declaration.tokensOf]⟩

end Phrase

end Grammar

end Lox
