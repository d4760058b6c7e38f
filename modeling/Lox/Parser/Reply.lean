import Lox.Diagnostic

/-!
# Parsers

A parser reads from the front of a list of tokens that holds no end of input. It replies with what
it read or why it failed, with the tokens that are left, and with a log of the failures that it met
and got over. The end of the list stands for the end of the input, so a failure names the token it
was noticed at, or none at the end.
-/

namespace Lox

/-- Why a parser stopped, and the token in front of it, if there was one. -/
structure Failure where
  fault : GrammarFault
  found : Option Token
deriving DecidableEq

/-- The error of a failure, when the input ends with the token `eof`. -/
def Failure.toError (eof : Token) (f : Failure) : GrammarError := ⟨f.fault, f.found.getD eof⟩

/-- What a parser replies. -/
structure Reply (α : Type) where
  result : Except Failure α
  rest : List Token
  log : List Failure

/-- Changes what was read. -/
def Reply.map {α β : Type} (f : α → β) (r : Reply α) : Reply β :=
  ⟨r.result.map f, r.rest, r.log⟩

/-- A parser for an `α`. -/
def Parser (α : Type) : Type := List Token → Reply α

namespace Parser

variable {α β : Type}

/-- Reads nothing. -/
@[inline]
def pure (a : α) : Parser α := fun ts => ⟨.ok a, ts, []⟩

/-- Reads with one parser and then with the next, unless the first one fails. -/
@[inline]
def bind (p : Parser α) (f : α → Parser β) : Parser β := fun ts =>
  match p ts with
  | ⟨.ok a, rest, log⟩ =>
    match f a rest with
    | ⟨result, rest, more⟩ => ⟨result, rest, log ++ more⟩
  | ⟨.error e, rest, log⟩ => ⟨.error e, rest, log⟩

instance : Monad Parser where
  pure := Parser.pure
  bind := Parser.bind

/-- Fails at the token in front. -/
def fail (fault : GrammarFault) : Parser α := fun ts => ⟨.error ⟨fault, ts.head?⟩, ts, []⟩

/-- Logs a fault at a token and goes on. -/
def note (fault : GrammarFault) (t : Token) : Parser Unit := fun ts => ⟨.ok (), ts, [⟨fault, some t⟩]⟩

/-- Reads one token of the given kind, or fails with the given fault. -/
def expect (kind : Kind) (fault : GrammarFault) : Parser Unit
  | [] => fail fault []
  | t :: ts => if t.kind = kind then ⟨.ok (), ts, []⟩ else fail fault (t :: ts)

end Parser

end Lox
