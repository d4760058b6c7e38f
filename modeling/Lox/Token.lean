/-!
# Tokens

A token is a kind, the text it was read from and the line that text ends on. The kinds are the
symbols and the keywords, which are finitely many, the three kinds that carry what they denote, and
the end of the input.

Lines are counted in 32-bit words, so the line after the largest one is the smallest one.
-/

namespace Lox

/-- Punctuation and operators. -/
inductive Symbol where
  | leftParen | rightParen | leftBrace | rightBrace | comma | dot
  | minus | plus | semicolon | slash | star | bang
  | bangEqual | equal | equalEqual | greater | greaterEqual | less | lessEqual
deriving DecidableEq

/-- The reserved words. -/
inductive Keyword where
  | andKw | classKw | elseKw | falseKw | forKw | funKw | ifKw | nilKw
  | orKw | printKw | returnKw | superKw | thisKw | trueKw | varKw | whileKw
deriving DecidableEq

namespace Symbol

/-- The name of a symbol. -/
def name : Symbol → String
  | .leftParen => "LeftParen"
  | .rightParen => "RightParen"
  | .leftBrace => "LeftBrace"
  | .rightBrace => "RightBrace"
  | .comma => "Comma"
  | .dot => "Dot"
  | .minus => "Minus"
  | .plus => "Plus"
  | .semicolon => "Semicolon"
  | .slash => "Slash"
  | .star => "Star"
  | .bang => "Bang"
  | .bangEqual => "BangEqual"
  | .equal => "Equal"
  | .equalEqual => "EqualEqual"
  | .greater => "Greater"
  | .greaterEqual => "GreaterEqual"
  | .less => "Less"
  | .lessEqual => "LessEqual"

/-- All symbols. -/
def all : List Symbol :=
  [.leftParen, .rightParen, .leftBrace, .rightBrace, .comma, .dot, .minus,
   .plus, .semicolon, .slash, .star, .bang, .bangEqual, .equal,
   .equalEqual, .greater, .greaterEqual, .less, .lessEqual]

/-- The characters of a symbol. -/
def spelling : Symbol → List Char
  | .leftParen => ['(']
  | .rightParen => [')']
  | .leftBrace => ['{']
  | .rightBrace => ['}']
  | .comma => [',']
  | .dot => ['.']
  | .minus => ['-']
  | .plus => ['+']
  | .semicolon => [';']
  | .slash => ['/']
  | .star => ['*']
  | .bang => ['!']
  | .bangEqual => ['!', '=']
  | .equal => ['=']
  | .equalEqual => ['=', '=']
  | .greater => ['>']
  | .greaterEqual => ['>', '=']
  | .less => ['<']
  | .lessEqual => ['<', '=']

end Symbol

namespace Keyword

/-- The name of a keyword. -/
def name : Keyword → String
  | .andKw => "And"
  | .classKw => "Class"
  | .elseKw => "Else"
  | .falseKw => "False"
  | .forKw => "For"
  | .funKw => "Fun"
  | .ifKw => "If"
  | .nilKw => "Nil"
  | .orKw => "Or"
  | .printKw => "Print"
  | .returnKw => "Return"
  | .superKw => "Super"
  | .thisKw => "This"
  | .trueKw => "True"
  | .varKw => "Var"
  | .whileKw => "While"

/-- All keywords. -/
def all : List Keyword :=
  [.andKw, .classKw, .elseKw, .falseKw, .forKw, .funKw, .ifKw, .nilKw,
   .orKw, .printKw, .returnKw, .superKw, .thisKw, .trueKw, .varKw, .whileKw]

/-- The characters of a keyword. -/
def spelling : Keyword → List Char
  | .andKw => ['a', 'n', 'd']
  | .classKw => ['c', 'l', 'a', 's', 's']
  | .elseKw => ['e', 'l', 's', 'e']
  | .falseKw => ['f', 'a', 'l', 's', 'e']
  | .forKw => ['f', 'o', 'r']
  | .funKw => ['f', 'u', 'n']
  | .ifKw => ['i', 'f']
  | .nilKw => ['n', 'i', 'l']
  | .orKw => ['o', 'r']
  | .printKw => ['p', 'r', 'i', 'n', 't']
  | .returnKw => ['r', 'e', 't', 'u', 'r', 'n']
  | .superKw => ['s', 'u', 'p', 'e', 'r']
  | .thisKw => ['t', 'h', 'i', 's']
  | .trueKw => ['t', 'r', 'u', 'e']
  | .varKw => ['v', 'a', 'r']
  | .whileKw => ['w', 'h', 'i', 'l', 'e']

/-- The keyword spelled by the given characters. -/
def ofSpelling? (cs : List Char) : Option Keyword :=
  all.find? fun k => k.spelling = cs

end Keyword

/-- What a token is, with the name, text or number that it denotes. -/
inductive Kind where
  | symbol (s : Symbol)
  | keyword (k : Keyword)
  | identifier (name : String)
  | string (text : String)
  | number (value : Float)
  | eof
deriving DecidableEq

/-- The name of a kind, without what it denotes. -/
def Kind.name : Kind → String
  | .symbol s => s.name
  | .keyword k => k.name
  | .identifier _ => "Identifier"
  | .string _ => "String"
  | .number _ => "Number"
  | .eof => "EOF"

/-- A token: its kind, its own text and the line its text ends on. -/
structure Token where
  kind : Kind
  lexeme : String
  line : Int32
deriving DecidableEq

namespace Token

/-- Whether a token marks the end of the input. -/
def isEof (t : Token) : Bool :=
  match t.kind with
  | .eof => true
  | _ => false

/-- The identifier token for a name on a line. -/
def identifier (name : String) (line : Int32) : Token := ⟨.identifier name, name, line⟩

end Token

end Lox
