import Lox.Proofs.Parser.Exactness
import Lox.Proofs.Parser.Locality
import Mathlib.Data.List.TakeWhile

/-!
# Reading in place

`parse` cuts a list of tokens at its first end of input, reads what stands before it, and bounds the
recursion by the number of tokens.  Here the same is read without either: the reader walks along the
whole list, the end of input and anything after it included, and looks for the end of the input only
where a loop over declarations may stop and where tokens are skipped.  A list that runs out ends
there.

Nothing bounds the recursion.  A `Reader` holds the functions that call themselves or each other,
`Reader.expand` is what each of them says in terms of the functions that it calls, and a reader is a
solution of these equations if `R.expand = R`.

Any list is the tokens before its first end of input, among which there is none (`Inside`), and the
tokens from there on, which are none or begin with an end of input (`Closing`).  A reply to the
former becomes a reply in place by `Reply.ending`: what is left has the rest of the list behind it,
and a failure at the end names the end of input, if there is one.
-/

namespace Lox

/-- A failure when the tokens `v` stand at the end of the input. -/
def Failure.ending (v : List Token) (f : Failure) : Failure := ⟨f.fault, f.found.or v.head?⟩

/-- A reply when the tokens `v` stand at the end of the input. -/
def Reply.ending {α : Type} (v : List Token) (r : Reply α) : Reply α :=
  ⟨r.result.mapError (Failure.ending v), r.rest ++ v, r.log.map (Failure.ending v)⟩

/-- The tokens from the first end of input on. -/
def Program.tail (ts : List Token) : List Token := ts.dropWhile fun t => t.kind ≠ .eof

namespace Parser

variable {α : Type}

/-! ### The two parts of a list -/

/-- Tokens before the end of the input. -/
def Inside (u : List Token) : Prop := ∀ t ∈ u, t.kind ≠ .eof

/-- Tokens from the end of the input on. -/
def Closing (v : List Token) : Prop := ∀ t ∈ v.head?, t.kind = .eof

theorem Inside.tail {t : Token} {u : List Token} (h : Inside (t :: u)) : Inside u :=
  fun x hx => h x (List.mem_cons_of_mem _ hx)

theorem Inside.of_suffix {u w : List Token} (h : Inside u) (hw : w <:+ u) : Inside w :=
  fun x hx => h x (hw.subset hx)

theorem inside_body (ts : List Token) : Inside (Program.body ts) := by
  intro t ht
  rw [body_eq_takeWhile] at ht
  have hkind := List.mem_takeWhile_imp ht
  exact of_decide_eq_true hkind

theorem closing_tail (ts : List Token) : Closing (Program.tail ts) := by
  intro t ht
  have hnot := List.head?_dropWhile_not (fun t : Token => decide (t.kind ≠ .eof)) ts
  rw [Program.tail] at ht
  rw [Option.mem_def.mp ht] at hnot
  simpa using hnot

@[simp]
theorem body_append_tail (ts : List Token) : Program.body ts ++ Program.tail ts = ts := by
  rw [body_eq_takeWhile]
  exact List.takeWhile_append_dropWhile

theorem tail_append {u v : List Token} (hu : Inside u) (hv : Closing v) :
    Program.tail (u ++ v) = v := by
  have hparts := body_append_tail (u ++ v)
  rw [body_append hu v hv] at hparts
  exact List.append_cancel_left hparts

@[simp]
theorem head?_tail (ts : List Token) : (Program.tail ts).head? = ts.find? Token.isEof := by
  have hnot : Token.isEof = fun t => !decide (t.kind ≠ .eof) := by
    funext t
    unfold Token.isEof
    split <;> simp_all
  rw [hnot, List.find?_not_eq_head?_dropWhile, Program.tail]

/-! ### The reader -/

/-- Skips a statement as `skipStatement` does, but never the end of the input. -/
def synchronize : List Token → List Token
  | [] => []
  | [t] => if t.kind = .eof then [t] else []
  | t :: next :: ts =>
    if t.kind = .eof then t :: next :: ts
    else if next.kind = .eof || t.kind = .symbol .semicolon || startsStatement next.kind then
      next :: ts
    else synchronize (next :: ts)

/-- Reads with `p`.  If that fails, logs the failure and skips the statement. -/
def resuming (p : Parser α) : Parser (Option α) := fun ts =>
  match p ts with
  | ⟨.ok a, rest, log⟩ => ⟨.ok (some a), rest, log⟩
  | ⟨.error f, rest, log⟩ => ⟨.ok none, synchronize rest, log ++ [f]⟩

/-- A statement, over the parsers of its parts; `whole` reads an expression that the statement
begins with. -/
def statementOver (expression whole : Parser Expr) (statement block : Parser Stmt) : Parser Stmt
  | [] => exprStatement whole []
  | t :: ts =>
    match t.kind with
    | .keyword .ifKw => conditional expression statement ts
    | .keyword .printKw => printStatement expression ts
    | .symbol .leftBrace => block ts
    | .keyword .whileKw => whileLoop expression statement ts
    | .keyword .forKw => forLoop expression statement ts
    | _ => exprStatement whole (t :: ts)

theorem statement_succ (b : Nat) (t : Token) (ts : List Token) :
    statement (b + 1) (t :: ts) = statementOver (expression b) (expression (b + 1)) (statement b)
      (block b (declaration (expression b) (statement b))) (t :: ts) := by
  rw [statement]
  unfold statementOver
  split <;> simp_all

/-- The functions of a parser that call themselves or each other: `rounds l ls left` is what follows
the operand `left` of the level `l`, with the levels `ls` tighter than it. -/
@[ext]
structure Reader where
  expression : Parser Expr
  rounds : Level → List Level → Expr → Parser Expr
  statement : Parser Stmt
  declarations : (Kind → Bool) → Parser (List Stmt)

namespace Reader

variable (R : Reader)

/-- An expression of the first of the given levels, which go from loose to tight. -/
def leveled : List Level → Parser Expr
  | [] => unary R.expression
  | l :: ls => do
    let left ← leveled ls
    R.rounds l ls left

/-- A variable declaration or a statement; nothing if it had to be given up. -/
def declaration : Parser (Option Stmt) := resuming (attempt R.expression R.statement)

/-- The part of a block after its opening brace. -/
def block : Parser Stmt := do
  let body ← R.declarations (· = .symbol .rightBrace)
  expect (.symbol .rightBrace) .braceAfterBlock
  return .block body

/-- What each function says in terms of the functions that it calls. -/
def expand : Reader where
  expression := do
    let left ← R.leveled Level.all
    assigned R.expression left
  rounds l ls left
    | [] => ⟨.ok left, [], []⟩
    | t :: ts =>
      if Level.of? t.kind = some l then
        (do
          let right ← R.leveled ls
          R.rounds l ls (l.node left t right) : Parser Expr) ts
      else ⟨.ok left, t :: ts, []⟩
  statement := statementOver R.expression R.expression R.statement R.block
  declarations stops
    | [] => ⟨.ok [], [], []⟩
    | t :: ts =>
      if t.kind = .eof || stops t.kind then ⟨.ok [], t :: ts, []⟩
      else
        (do
          let first ← R.declaration
          let others ← R.declarations stops
          return first.toList ++ others : Parser (List Stmt)) (t :: ts)

/-- Reads a program.  A list that runs out ends on line zero. -/
def program (ts : List Token) : Program :=
  let reply := R.declarations (fun _ => false) ts
  ⟨(reply.result.toOption).getD [], reply.log.map (Failure.toError ⟨.eof, "", 0⟩)⟩

end Reader

end Parser

end Lox
