import Lox.Execution
import Lox.Program
import Lox.Proofs.Decimal.ReadsBack
import Lox.Proofs.Lexicon.Rendering
import Lox.Proofs.Lockstep
import Lox.Proofs.Number.Bits

/-!
# A printed number is an expression for it

The text of a finite number is a numeral, with a minus sign before it if the sign bit is set.
Before a semicolon it is scanned as that sign and that numeral (`gives_text`), and these are read as
a literal, perhaps with a negation around it.  The numeral reads back as the double with the code of
the number (`ofChars_shortest`) and negation changes the sign bit only, so the value of the
expression is the number, bit for bit.  Negative zero is printed as `-0`, which is the negation of
zero and not zero.
-/

namespace Lox

namespace Lexicon

/-! ### Units before a character that ends them -/

theorem longest_cons {P : List Char → Prop} {text rest : List Char} {c : Char} (htext : P text)
    (hc : ∀ t, P t → c ∉ t) : Longest P text (c :: rest) where
  holds := htext
  length_le t ht hP := by
    by_contra hlt
    have hle : (text ++ [c]).length ≤ t.length := by
      rw [List.length_append, List.length_singleton]
      omega
    have hbegins : text ++ [c] <+: t :=
      List.prefix_of_prefix_length_le ⟨rest, List.append_assoc _ _ _⟩ ht hle
    exact hc t hP (hbegins.subset (List.mem_append_right _ List.mem_cons_self))

theorem Numeral.digit_or_point {t : List Char} (h : Numeral t) {c : Char} (hc : c ∈ t) :
    Digit c ∨ c = '.' := by
  cases h with
  | whole hds => exact .inl (hds.2 c hc)
  | fraction hds hes =>
    rcases List.mem_append.mp hc with hc | hc
    · exact .inl (hds.2 c hc)
    · rcases List.mem_cons.mp hc with rfl | hc
      · exact .inr rfl
      · exact .inl (hes.2 c hc)

theorem Numeral.ofChars_eq {t : List Char} (h : Numeral t) :
    Number.ofChars t = (Decimal.ofChars t).toFloat := by
  have hcons : ∀ {ds : List Char} (more : List Char), Digits ds →
      Number.ofChars (ds ++ more) = (Decimal.ofChars (ds ++ more)).toFloat := by
    intro ds more hds
    obtain ⟨hne, hds⟩ := digits_iff.mp hds
    obtain ⟨d, ds, rfl⟩ := List.exists_cons_of_ne_nil hne
    exact ofChars_of_isDigit _ (hds d List.mem_cons_self)
  cases h with
  | whole hds =>
    have heq := hcons [] hds
    rwa [List.append_nil] at heq
  | fraction hds hes => exact hcons _ hds

end Lexicon

namespace Number

open Lexicon (Numeral)

/-! ### The text of a finite number -/

/-- The sign before a numeral, as a token. -/
def signTokens (negative : Bool) : List Token :=
  if negative then [⟨.symbol .minus, "-", 1⟩] else []

theorem toList_text {x : Float} (h : x.isFinite) :
    (text x).toList =
      (if isNegative x then ['-'] else []) ++ (Decimal.shortest (code x)).toChars := by
  have hne : code x ≠ Magnitude.infinityCode := (code_lt_infinityCode h).ne
  have hchars : (magnitudeText (code x)).toList = (Decimal.shortest (code x)).toChars := by
    rw [magnitudeText, if_neg hne, Decimal.text, String.toList_ofList]
  have hminus : "-".toList = ['-'] := rfl
  rw [text, isNaN_eq_false h, if_neg Bool.false_ne_true]
  split
  · rw [String.toList_append, hchars, hminus]
  · rw [hchars, List.nil_append]

theorem ofChars_shortest {c : Nat} (hc : c < Magnitude.infinityCode) :
    ofChars (Decimal.shortest c).toChars = Float.ofBits (UInt64.ofNat c) := by
  rw [(Decimal.numeral_toChars _).ofChars_eq, Decimal.ofChars_toChars, Decimal.toFloat,
    Decimal.code_shortest hc]

/-- **Before a semicolon the text of a finite number is its sign and its numeral.** -/
theorem gives_text {x : Float} (h : x.isFinite) :
    Lexicon.Gives (Piece.split (text x ++ ";").toList) (signTokens (isNegative x) ++
      [⟨.number (Float.ofBits (UInt64.ofNat (code x))),
        String.ofList (Decimal.shortest (code x)).toChars, 1⟩, ⟨.symbol .semicolon, ";", 1⟩]) := by
  have hnumeral := Decimal.numeral_toChars (Decimal.shortest (code x))
  have hlongest : Lexicon.Longest Numeral (Decimal.shortest (code x)).toChars [';'] := by
    refine Lexicon.longest_cons hnumeral fun t ht hmem => ?_
    rcases ht.digit_or_point hmem with hdigit | hpoint
    · exact absurd (Lexicon.isDigit_iff.mpr hdigit) (by decide)
    · exact absurd hpoint (by decide)
  have hnumber := Lexicon.gives_semicolon.unit 1 (.number hlongest)
  rw [ofChars_shortest (code_lt_infinityCode h)] at hnumber
  have hend : ";".toList = [';'] := rfl
  have hminus : String.ofList ['-'] = "-" := rfl
  rw [String.toList_append, toList_text h, List.append_assoc, signTokens, hend]
  cases isNegative x with
  | false =>
    rw [if_neg Bool.false_ne_true, if_neg Bool.false_ne_true, List.nil_append, List.nil_append]
    exact hnumber
  | true =>
    rw [if_pos rfl, if_pos rfl, ← hminus]
    exact hnumber.unit 1 (Lexicon.regular_symbol .minus (by intro t; cases t <;> decide) nofun _)

/-! ### Reading it -/

theorem parse_literal {ts : List Token} {x : Float} {a b c : String}
    (h : ts.map Token.content = [(.number x, a), (.symbol .semicolon, b), (.eof, c)]) :
    parse ts = ⟨[.expr (.literal (.number x))], []⟩ := by
  match ts, h with
  | [⟨k₁, a₁, l₁⟩, ⟨k₂, a₂, l₂⟩, ⟨k₃, a₃, l₃⟩], h =>
    cases h
    rfl

theorem parse_negated {ts : List Token} {x : Float} {a b c d : String}
    (h : ts.map Token.content =
      [(.symbol .minus, a), (.number x, b), (.symbol .semicolon, c), (.eof, d)]) :
    ∃ t : Token, t.kind = .symbol .minus ∧
      parse ts = ⟨[.expr (.unary t (.literal (.number x)))], []⟩ := by
  match ts, h with
  | [⟨k₁, a₁, l₁⟩, ⟨k₂, a₂, l₂⟩, ⟨k₃, a₃, l₃⟩, ⟨k₄, a₄, l₄⟩], h =>
    cases h
    exact ⟨_, rfl, rfl⟩

/-! ### The round trip -/

theorem eval_negated {t : Token} (ht : t.kind = .symbol .minus) (x : Float) (env : Environment)
    (s : Scopes) : (Expr.unary t (.literal (.number x))).eval env s = .ok (.number (-x)) s := by
  have hvalue : Operator.unary t (.number x) = .ok (.number (-x)) := by
    rw [Operator.unary, ht]
  have heval : (Expr.unary t (.literal (.number x))).eval env s =
      Eval.ofExcept (Operator.unary t (.number x)) s := rfl
  rw [heval, hvalue]
  rfl

/-- The text is read as an expression for the number, both in the case of a set sign bit and in the
other one. -/
theorem exists_parse_text {x : Float} (h : x.isFinite) :
    (scan (text x ++ ";")).errors = [] ∧ ∃ e : Expr,
      parse (scan (text x ++ ";")).tokens = ⟨[.expr e], []⟩ ∧
        ∀ (env : Environment) (s : Scopes), e.eval env s = .ok (.number x) s := by
  obtain ⟨herrors, htokens⟩ := (gives_text h).scan
  refine ⟨herrors, ?_⟩
  have hx := eq_ofBits_code h
  cases hnegative : isNegative x with
  | false =>
    rw [hnegative] at htokens hx
    refine ⟨_, parse_literal htokens, fun env s => ?_⟩
    exact congrArg (fun y => EStateM.Result.ok (Value.number y) s) hx.symm
  | true =>
    rw [hnegative] at htokens hx
    obtain ⟨t, ht, hparse⟩ := parse_negated htokens
    refine ⟨_, hparse, fun env s => ?_⟩
    rw [eval_negated ht]
    exact congrArg (fun y => EStateM.Result.ok (Value.number y) s) hx.symm

/-- **A printed finite number is an expression for that number.**  The text of the number and a
semicolon are scanned and parsed without errors as one expression statement; in every environment
the expression evaluates to the number, with the same bits, and changes nothing; so printing it
writes the same text again. -/
theorem printed_number_denotes_itself (x : Float) (h : x.isFinite) :
    (scan ((Value.number x).text ++ ";")).errors = [] ∧
    (parse (scan ((Value.number x).text ++ ";")).tokens).errors = [] ∧
    ∃ e : Expr, (parse (scan ((Value.number x).text ++ ";")).tokens).statements = [.expr e] ∧
      (∀ (env : Environment) (s : Scopes), e.eval env s = .ok (.number x) s) ∧
      ∀ (bound : Nat) (env : Environment),
        (Stmt.print e).exec bound env = Run.writeLine (Value.number x).text := by
  obtain ⟨herrors, e, hparse, heval⟩ := exists_parse_text h
  have htext : (Value.number x).text = text x := rfl
  rw [htext, hparse]
  refine ⟨herrors, rfl, e, rfl, heval, fun bound env => ?_⟩
  funext ⟨scopes, sink, events⟩
  have hvalue : Run.eval (e.eval env) ⟨scopes, sink, events⟩ =
      .ok (.number x) ⟨scopes, sink, events⟩ := by
    rw [Run.eval, heval]
  rw [Stmt.exec, bind_of_ok _ hvalue]
  rfl

/-- Negative zero, which equals zero and is not zero. -/
theorem printed_number_denotes_itself_negative_zero :
    let x := Float.ofBits 0x8000000000000000
    x.isFinite = true ∧ (Value.number x).text = "-0" ∧ (scan "-0;").errors = [] ∧
      (parse (scan "-0;").tokens).errors = [] ∧
      ∃ e : Expr, (parse (scan "-0;").tokens).statements = [.expr e] ∧
        (∀ (env : Environment) (s : Scopes), e.eval env s = .ok (.number x) s) ∧
        ∀ (bound : Nat) (env : Environment),
          (Stmt.print e).exec bound env = Run.writeLine "-0" := by
  intro x
  have hfinite : x.isFinite = true := by decide +kernel
  have htext : (Value.number x).text = "-0" := by decide +kernel
  have hsource : "-0" ++ ";" = "-0;" := by decide
  have hprinted := printed_number_denotes_itself x hfinite
  rw [htext, hsource] at hprinted
  exact ⟨hfinite, htext, hprinted⟩

end Number

end Lox
